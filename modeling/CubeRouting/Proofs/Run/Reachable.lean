/-
  The states that a node reaches.

  A node starts with a valid configuration and empty tables, and serves any
  requests in any order.  `Invariant` holds in every state that it reaches
  (`Reachable.invariant`): the tables are well-formed and their entries are in
  their places.

  * `Reachable.induction_singles`, `Reachable.induction_engine`: induction on the
    requests, with the peers that they bring one by one;
  * `Reachable.follows`: the policies in use are those of the configuration;
  * `Reachable.tables_consistent`: what this means for reading the tables.
-/
import CubeRouting.Proofs.Placement.Rules
import CubeRouting.Proofs.Run.Evolution
import CubeRouting.Proofs.Table.Scan

namespace CubeRouting

variable {key : Identifier → UInt64} {c : Config} {self : Identifier} {s : Service}

/-- The states of a node that started with configuration `c` and identifier
    `x`. -/
inductive Reachable (key : Identifier → UInt64) (c : Config) (x : Identifier) : Service → Prop where
  | create {address : Address} {entropy : WordStream} {now : Timestamp} {s : Service} :
      Service.create (.keyed key x address) c entropy now = .ok s → Reachable key c x s
  | handle {s : Service} (r : Request) :
      Reachable key c x s → Reachable key c x (s.handle key r).1

/-! ## The start -/

theorem Config.shape_ok {sh : Shape} (h : c.shape = .ok sh) :
    sh.dimensions = c.dimensions ∧ sh.digits = c.digits := by
  rw [shape] at h
  cases hsh : Shape.ofExtents c.dimensions c.digits with
  | error fault =>
    rw [hsh] at h
    cases h
  | ok sh' =>
    rw [hsh] at h
    cases h
    exact Shape.ofExtents_eq_ok_iff.1 hsh

/-- **A node starts if its configuration is valid** and its identifier has the
    configured shape. -/
theorem Service.create_ok_iff {node : NodeRecord} {entropy : WordStream} {now : Timestamp} :
    Service.create node c entropy now = .ok s ↔
      (c.validate = .ok () ∧ c.shape = .ok node.id.shape) ∧ s = ⟨.fresh node c entropy, now⟩ := by
  rw [Service.create, Engine.create]
  cases hv : c.validate with
  | error fault => exact iff_of_false (fun h => by cases h) fun h => by cases h.1.1
  | ok =>
    cases hs : c.shape with
    | error fault => exact iff_of_false (fun h => by cases h) fun h => by cases h.1.2
    | ok sh =>
      by_cases hne : node.id.shape = sh
      · subst hne
        have hcreate : (do
            (Except.ok () : Except ConfigError Unit).mapError RoutingError.config
            let expected ← (Except.ok node.id.shape : Except ConfigError Shape).mapError .config
            if node.id.shape ≠ expected then throw (.selfShape expected node.id.shape)
            return Engine.fresh node c entropy) =
            (Except.ok (Engine.fresh node c entropy) : Except RoutingError Engine) := by
          simp only [Except.mapError, ok_bind, ne_eq, not_true_eq_false, if_false]
          rfl
        rw [hcreate]
        constructor
        · intro h
          cases h
          exact ⟨⟨rfl, rfl⟩, rfl⟩
        · rintro ⟨-, rfl⟩
          rfl
      · refine iff_of_false (fun h => ?_) fun h => hne (Except.ok.inj h.1.2).symm
        simp only [Except.mapError, ok_bind, ne_eq, hne, not_false_eq_true, if_true] at h
        cases h

theorem Reachable.start (hv : c.validate = .ok ()) (hs : c.shape = .ok self.shape)
    (address : Address) (entropy : WordStream) (now : Timestamp) :
    Reachable key c self ⟨.fresh (.keyed key self address) c entropy, now⟩ :=
  .create (Service.create_ok_iff.2 ⟨⟨hv, hs⟩, rfl⟩)

theorem Reachable.config_valid (h : Reachable key c self s) :
    c.validate = .ok () ∧ c.shape = .ok self.shape := by
  induction h with
  | create h => exact (Service.create_ok_iff.1 h).1
  | handle _ _ ih => exact ih

/-! ## Cells lie in the tables -/

theorem inGrid_ofConfig (hs : c.shape = .ok self.shape) {peer : Identifier} {i : SlotIndex}
    {kind : TableKind} (h : c.HasCell self peer i kind) :
    ((RoutingTable.ofConfig c).get kind).InGrid i := by
  obtain ⟨hD, hn⟩ : self.dimensions = c.dimensions ∧ self.digits = c.digits := Config.shape_ok hs
  have hrt1 : ∀ {cells}, Cells.compute self peer = .ok cells →
      cells.rt1.level < c.digits ∧ cells.rt1.column < RoutingTable.digitColumns c.dimensions := by
    intro cells hcells
    obtain ⟨hshape, -, hlt, hdesc⟩ := Cells.describes_of_compute hcells
    obtain ⟨k, -, hk, hlevel, hcolumn, -⟩ := hdesc.rt1
    have hcol := Identifier.digitNat_lt hcolumn
    rw [← show self.dimensions = peer.dimensions from congrArg Shape.dimensions hshape] at hcol
    rw [← hD, ← hn, RoutingTable.digitColumns, if_pos hlt, hlevel]
    exact ⟨by omega, hcol⟩
  have hrt2 : ∀ {cells}, Cells.compute self peer = .ok cells → cells.rt2 = some i →
      i.level < c.digits ∧ i.column < c.dimensions := by
    intro cells hcells hi
    obtain ⟨-, -, -, hdesc⟩ := Cells.describes_of_compute hcells
    obtain ⟨hcol, hlevel, -⟩ := (hdesc.rt2 i).1 hi
    rw [← hD, ← hn]
    exact ⟨hlevel, hcol⟩
  cases kind with
  | ns =>
    obtain ⟨-, rfl⟩ := h
    exact ⟨Nat.one_pos, Nat.one_pos⟩
  | rt1 =>
    obtain ⟨cells, hcells, rfl, -⟩ := h
    exact hrt1 hcells
  | rt2 =>
    obtain ⟨-, cells, hcells, hi⟩ := h
    exact hrt2 hcells hi
  | secRt1 =>
    obtain ⟨-, cells, hcells, rfl, -⟩ := h
    exact hrt1 hcells
  | secRt2 =>
    obtain ⟨-, -, cells, hcells, hi⟩ := h
    exact hrt2 hcells hi

/-! ## The invariant -/

/-- What holds in every state of a node. -/
structure Invariant (key : Identifier → UInt64) (c : Config) (x : Identifier) (s : Service) :
    Prop where
  self_id : s.engine.self.id = x
  config_eq : s.engine.config = c
  sane : s.engine.Sane key
  grid : ∀ kind, (s.tables.get kind).SameGrid ((RoutingTable.ofConfig c).get kind)
  wellFormed : ∀ kind, (s.tables.get kind).WellFormed
  inPlace : ∀ kind, ∀ e ∈ (s.tables.get kind).entries, e.InPlace key c x kind

theorem get_ofConfig (c : Config) (kind : TableKind) : ∃ levels columns capacity,
    (RoutingTable.ofConfig c).get kind = .empty kind levels columns capacity := by
  cases kind <;> exact ⟨_, _, _, rfl⟩

theorem SubTable.SameGrid.kind_eq {t : SubTable} {kind : TableKind}
    (h : t.SameGrid ((RoutingTable.ofConfig c).get kind)) : t.kind = kind := by
  rw [h.kind]
  cases kind <;> rfl

theorem entries_ofConfig (c : Config) (kind : TableKind) :
    ((RoutingTable.ofConfig c).get kind).entries = [] := by
  obtain ⟨levels, columns, capacity, h⟩ := get_ofConfig c kind
  rw [List.eq_nil_iff_forall_not_mem]
  intro e he
  obtain ⟨i, hi⟩ := SubTable.mem_entries.1 he
  rw [h, SubTable.slot_empty] at hi
  cases hi

theorem invariant_fresh (address : Address) (entropy : WordStream) (now : Timestamp) :
    Invariant key c self ⟨.fresh (.keyed key self address) c entropy, now⟩ where
  self_id := rfl
  config_eq := rfl
  sane := ⟨rfl, by rw [Engine.fresh]; cases c.useSecure <;> rfl⟩
  grid kind := SubTable.SameGrid.refl _
  wellFormed kind := by
    obtain ⟨levels, columns, capacity, h⟩ := get_ofConfig c kind
    change ((RoutingTable.ofConfig c).get kind).WellFormed
    rw [h]
    exact SubTable.wellFormed_empty ..
  inPlace kind e he := by
    change e ∈ ((RoutingTable.ofConfig c).get kind).entries at he
    rw [entries_ofConfig] at he
    cases he

/-- **One request keeps the invariant.** -/
theorem Invariant.handle (h : Invariant key c self s) (hs : c.shape = .ok self.shape)
    (r : Request) : Invariant key c self (s.handle key r).1 := by
  obtain ⟨hkeeps, htables⟩ := Service.handle_leads s h.sane r
  rw [h.config_eq, h.self_id] at htables
  have hgrid : ∀ kind candidate i, Offered key c self kind candidate i →
      (s.tables.get kind).InGrid i := fun kind candidate i hi =>
    (h.grid kind).inGrid_iff.2 (inGrid_ofConfig hs hi.cell)
  constructor
  case self_id => rw [hkeeps.self, h.self_id]
  case config_eq => rw [hkeeps.config, h.config_eq]
  case sane => exact h.sane.keeps hkeeps
  case grid => exact fun kind => (htables kind).sameGrid.trans (h.grid kind)
  case wellFormed => exact fun kind => (htables kind).wellFormed (hgrid kind) (h.wellFormed kind)
  case inPlace =>
    intro kind e' he'
    rcases (htables kind).entries (hgrid kind) (h.wellFormed kind) e' he' with
      ⟨e, he, hc⟩ | ⟨candidate, i, hi, hc⟩
    · exact (h.inPlace kind e he).continues hc
    · refine Entry.InPlace.continues ?_ hc
      rw [SubTable.entryOf, (h.grid kind).kind_eq]
      exact hi

/-- **The invariant holds in every state that a node reaches.** -/
theorem Reachable.invariant (h : Reachable key c self s) : Invariant key c self s := by
  induction h with
  | create h =>
    obtain ⟨-, rfl⟩ := Service.create_ok_iff.1 h
    exact invariant_fresh ..
  | handle r h ih => exact ih.handle h.config_valid.2 r

/-! ## Runs -/

theorem Request.of_mem_singles {r r' : Request} (h : r' ∈ r.singles) :
    r'.peers = [] ∨ ∃ id address, r' = .notify id address := by
  cases r with
  | notify id address => exact Or.inr ⟨id, address, List.mem_singleton.1 h⟩
  | recoveryReply peers =>
    obtain ⟨p, -, rfl⟩ := List.mem_map.1 h
    exact Or.inr ⟨p.1, p.2, rfl⟩
  | _ =>
    rw [List.mem_singleton.1 h]
    exact Or.inl rfl

theorem Reachable.run (h : Reachable key c self s) (rs : List Request) :
    Reachable key c self (s.run key rs) := by
  induction rs generalizing s with
  | nil => exact h
  | cons r rs ih => exact ih (h.handle r)

namespace Service

theorem run_concat (key : Identifier → UInt64) (s : Service) (rs : List Request) (r : Request) :
    s.run key (rs ++ [r]) = ((s.run key rs).handle key r).1 := by
  rw [run, List.foldl_append]
  rfl

theorem run_append (key : Identifier → UInt64) (s : Service) (rs rs' : List Request) :
    s.run key (rs ++ rs') = (s.run key rs).run key rs' := List.foldl_append

theorem run_singles (key : Identifier → UInt64) (s : Service) (r : Request) :
    s.run key r.singles = (s.handle key r).1 := by
  cases r with
  | recoveryReply peers =>
    change s.run key (peers.map fun p => .notify p.1 p.2) = (s.recoveryReply _).1
    induction peers generalizing s with
    | nil => rfl
    | cons p peers ih => exact ih _
  | _ => rfl

end Service

/-- **Induction on runs with the peers one by one.** -/
theorem Reachable.induction_singles {P : Service → Prop} (h : Reachable key c self s)
    (create : ∀ address entropy now, P ⟨.fresh (.keyed key self address) c entropy, now⟩)
    (quiet : ∀ s r, Reachable key c self s → r.peers = [] → P s → P (s.handle key r).1)
    (notify : ∀ s id address, Reachable key c self s → P s →
      P (s.handle key (.notify id address)).1) : P s := by
  have hsingles : ∀ (rs : List Request) (s : Service), Reachable key c self s →
      (∀ r ∈ rs, r.peers = [] ∨ ∃ id address, r = .notify id address) → P s → P (s.run key rs) := by
    intro rs
    induction rs with
    | nil => exact fun s _ _ hs => hs
    | cons r rs ih =>
      intro s h hrs hs
      refine ih _ (h.handle r) (fun r' hr' => hrs r' (List.mem_cons_of_mem r hr')) ?_
      rcases hrs r List.mem_cons_self with hr | ⟨id, address, rfl⟩
      · exact quiet s r h hr hs
      · exact notify s id address h hs
  induction h with
  | create h =>
    obtain ⟨-, rfl⟩ := Service.create_ok_iff.1 h
    exact create ..
  | handle r h ih =>
    rw [← Service.run_singles]
    exact hsingles r.singles _ h (fun _ => Request.of_mem_singles) ih

/-- **Induction on what a node remembers beside its tables.** -/
theorem Reachable.induction_engine {P : Engine → Prop} (h : Reachable key c self s)
    (fresh : ∀ node entropy, P (.fresh node c entropy))
    (tables : ∀ e t, P e → P { e with tables := t })
    (notify : ∀ (e : Engine) peer time, P e → P (e.notify peer time).1) : P s.engine := by
  refine h.induction_singles (P := fun s => P s.engine)
    (fun address entropy now => fresh (.keyed key self address) entropy)
    (fun s r _ hr hs => ?_) fun s id address _ hs => notify s.engine (.keyed key id address) s.now hs
  rw [s.engine_handle hr]
  exact tables s.engine _ hs

/-! ## The policies in use -/

/-- **The policies of a node follow the rules of its configuration.** -/
theorem Reachable.follows (h : Reachable key c self s) : s.engine.Follows := by
  refine h.induction_singles (P := fun s => s.engine.Follows)
    (fun address entropy now => ?_) (fun s r _ hr hs => ?_) fun s id address _ hs => ?_
  · exact Engine.follows_fresh _ c entropy
  · rw [s.engine_handle hr]
    exact ⟨hs.ns, hs.rt, hs.secure⟩
  · exact (Engine.notify_follows hs (.keyed key id address) s.now).1

/-- A neighborhood set that is spread over buckets stays so. -/
theorem Reachable.nsPolicy_balanced (h : Reachable key c self s) {p : Partition}
    (hp : Policy.ofNs c = .balanced p) : s.engine.nsPolicy = .balanced p := by
  have hrule := h.follows.ns
  rw [h.invariant.config_eq, Config.ruleOf, hp] at hrule
  exact Policy.eq_of_rule hrule (by simp) (by simp)

/-! ## Reading the tables -/

/-- **In every state that a node reaches its tables are consistent**: each of
    the five tables has the configured size and reads as its grid, and so do
    all tables together. -/
theorem Reachable.tables_consistent (h : Reachable key c self s) :
    (∀ kind, (s.tables.get kind).kind = kind ∧
      (s.tables.get kind).SameGrid ((RoutingTable.ofConfig c).get kind) ∧
      (s.tables.get kind).Consistent) ∧
    s.tables.allEntries = TableKind.all.flatMap (fun kind => (s.tables.get kind).scan) ∧
    (∀ hash, s.tables.entriesOf hash = TableKind.all.filterMap fun kind =>
      (s.tables.get kind).scan.find? (·.hash == hash)) ∧
    s.tables.stats = TableKind.all.map fun kind => ⟨(s.tables.get kind).scan.length,
      ((s.tables.get kind).cells.filter fun i => !((s.tables.get kind).slot i).isEmpty).length⟩ := by
  have hinv := h.invariant
  have hcons : ∀ kind, (s.tables.get kind).Consistent := fun kind => (hinv.wellFormed kind).consistent
  refine ⟨fun kind => ⟨(hinv.grid kind).kind_eq, hinv.grid kind, hcons kind⟩, ?_, fun hash => ?_, ?_⟩
  · exact List.flatMap_congr fun kind _ => (hcons kind).entries_eq
  · exact List.filterMap_congr fun kind _ => (hcons kind).get?_eq hash
  · refine List.map_congr_left fun kind _ => ?_
    rw [(hcons kind).size_eq, (hcons kind).occupiedSlots_eq]

theorem tables_consistent_notified : ∃ s, Reachable Identifier.hash .small (.zero (.mk 2 4)) s ∧
    s.tables.totalEntries = 2 ∧ ∀ kind, (s.tables.get kind).Consistent := by
  have hstart : Reachable Identifier.hash .small (.zero (.mk 2 4)) _ :=
    Reachable.start rfl rfl "10.0.0.1:7000" (.ofSeed 7) (.ofMillis 0)
  have hs := hstart.handle (.notify (.ofFn (.mk 2 4) (· == 4)) "10.0.0.2:7000")
  exact ⟨_, hs, by decide +kernel, fun kind => (hs.tables_consistent.1 kind).2.2⟩

end CubeRouting
