/-
  Peers that both tables of a pair have.

  A pair of tables is `Separated` if RT2 has the peers of RT1 at lower levels
  only.  RT2 sees to this by a look at what RT1 did with the peer, but RT1 does
  not look at RT2: it takes a peer that it declined once and that RT2 has taken
  at its RT1 level since (`TakesCovered`).

  * `overlaps_notify`: a notification makes tables overlap if and only if RT1
    takes a peer in this way;
  * `run_separated_iff`: tables stay separated along a run if and only if RT1
    takes no peer in this way.
-/
import CubeRouting.Proofs.Run.Places

namespace CubeRouting

variable {key : Identifier → UInt64} {c : Config} {self id : Identifier} {s : Service}
  {pair : TablePair} {t t' : RoutingTable}

/-! ## Separated tables -/

namespace TablePair

/-- RT2 has a peer of RT1 at a lower level only, and not at all if RT1 leaves
    its peers to RT2. -/
structure Separated (pair : TablePair) (leaveToRt2 : Bool) (t : RoutingTable) : Prop where
  level_lt : ∀ e₁ ∈ (t.get pair.rt1).entries, ∀ e₂ ∈ (t.get pair.rt2).entries,
    e₁.node.id = e₂.node.id → e₂.slot.index.level < e₁.slot.index.level
  disjoint : leaveToRt2 = true → ∀ e₁ ∈ (t.get pair.rt1).entries,
    ∀ e₂ ∈ (t.get pair.rt2).entries, e₁.node.id ≠ e₂.node.id

/-- Both tables have a peer at one level. -/
def Overlaps (pair : TablePair) (t : RoutingTable) : Prop :=
  ∃ e₁ ∈ (t.get pair.rt1).entries, ∃ e₂ ∈ (t.get pair.rt2).entries,
    e₁.node.id = e₂.node.id ∧ e₂.slot.index.level = e₁.slot.index.level

/-- RT1 takes a peer at a level at which RT2 has it. -/
def TakesCovered (pair : TablePair) (t : RoutingTable) (hash : UInt64) (first : Placement) :
    Prop :=
  ∃ i a, first = .considered i a ∧ a.isAdmitted = true ∧
    ∃ e ∈ (t.get pair.rt2).entries, e.hash = hash ∧ e.slot.index.level = i.level

theorem Overlaps.of_continues
    (hc : ∀ kind, ∀ e' ∈ (t'.get kind).entries, ∃ e ∈ (t.get kind).entries, e'.Continues e)
    (h : pair.Overlaps t') : pair.Overlaps t := by
  obtain ⟨e₁, he₁, e₂, he₂, hid, hlevel⟩ := h
  obtain ⟨e₁', he₁', hc₁⟩ := hc _ e₁ he₁
  obtain ⟨e₂', he₂', hc₂⟩ := hc _ e₂ he₂
  refine ⟨e₁', he₁', e₂', he₂', ?_, ?_⟩
  · rw [← hc₁.id, ← hc₂.id, hid]
  · rw [← hc₁.slot, ← hc₂.slot, hlevel]

end TablePair

/-- The pairs of tables of a node. -/
def Config.pairs (c : Config) : List TablePair := [.primary c, .secure]

/-- Both pairs of tables are separated. -/
def RoutingTable.Separated (c : Config) (t : RoutingTable) : Prop :=
  ∀ pair ∈ c.pairs, pair.Separated c.excludeRt2Scope t

/-- RT1 takes a peer of a notification at a level at which RT2 has it, or the
    secure tables do so. -/
def Service.TakesCovered (key : Identifier → UInt64) (s : Service) (id : Identifier)
    (address : Address) : Prop :=
  ∃ report, (s.notify (.keyed key id address)).2 = .processed report ∧
    ∃ pair ∈ s.engine.config.pairs, pair.TakesCovered s.tables (key id) (report.get pair.rt1)

/-- A pair of tables takes a peer by its rules. -/
theorem Engine.Places.of_pair {e e' : Engine} {cells : Option Cells} {candidate : Candidate}
    {r : Report} (h : e.Places e' cells candidate r) (hpair : pair ∈ e.config.pairs) :
    ∃ cells' second, (∀ x ∈ cells', x ∈ cells) ∧
      pair.Places e.config.excludeRt2Scope cells' candidate e.tables e'.tables
        (r.get pair.rt1) second := by
  rcases List.mem_pair.1 hpair with rfl | rfl
  · exact ⟨cells, r.rt2, fun _ hx => hx, h.primary⟩
  · exact ⟨e.secureCells cells, r.secRt2, fun _ hx => (Engine.mem_secureCells.1 hx).2, h.secure⟩

namespace Invariant

section
variable (h : Invariant key c self s) (hpair : pair ∈ c.pairs)
include h hpair

theorem hasRt1Cell {e : Entry} (he : e ∈ (s.tables.get pair.rt1).entries) :
    pair.HasRt1Cell c.excludeRt2Scope self e.node.id e.slot.index := by
  rcases List.mem_pair.1 hpair with rfl | rfl
  · exact (h.inPlace .rt1 e he).cell
  · exact (h.inPlace .secRt1 e he).cell.2

theorem hasRt2Cell {e : Entry} (he : e ∈ (s.tables.get pair.rt2).entries) :
    pair.HasRt2Cell self e.node.id e.slot.index := by
  rcases List.mem_pair.1 hpair with rfl | rfl
  · exact (h.inPlace .rt2 e he).cell
  · exact (h.inPlace .secRt2 e he).cell.2

/-- **RT2 never has a peer above its RT1 level**, so tables are separated if
    they do not overlap. -/
theorem separated_iff : pair.Separated c.excludeRt2Scope s.tables ↔ ¬pair.Overlaps s.tables := by
  constructor
  · rintro hsep ⟨e₁, he₁, e₂, he₂, hid, hlevel⟩
    have hlt := hsep.level_lt e₁ he₁ e₂ he₂ hid
    omega
  intro hno
  have hboth : ∀ e₁ ∈ (s.tables.get pair.rt1).entries, ∀ e₂ ∈ (s.tables.get pair.rt2).entries,
      e₁.node.id = e₂.node.id → e₂.slot.index.level < e₁.slot.index.level ∧
        c.excludeRt2Scope = false := by
    intro e₁ he₁ e₂ he₂ hid
    obtain ⟨cells, hcells, h₁, -, hleave⟩ := h.hasRt1Cell hpair he₁
    obtain ⟨-, cells', hcells', h₂⟩ := h.hasRt2Cell hpair he₂
    rw [← hid, hcells] at hcells'
    cases hcells'
    obtain ⟨-, -, -, hdesc⟩ := Cells.describes_of_compute hcells
    have hlt : e₂.slot.index.level < cells.rt1.level := by
      refine Nat.lt_of_le_of_ne (hdesc.rt2_level_le _ h₂) fun heq => hno ?_
      exact ⟨e₁, he₁, e₂, he₂, hid, by rw [h₁, heq]⟩
    refine ⟨by rw [h₁]; exact hlt, ?_⟩
    -- RT1 would have left the peer to RT2
    by_contra hne
    have hbelow := (hdesc.rt2Below _).2 ⟨h₂, hlt⟩
    rw [hleave (by simpa using hne)] at hbelow
    cases hbelow
  constructor
  · exact fun e₁ he₁ e₂ he₂ hid => (hboth e₁ he₁ e₂ he₂ hid).1
  · intro hleave e₁ he₁ e₂ he₂ hid
    rw [(hboth e₁ he₁ e₂ he₂ hid).2] at hleave
    cases hleave

/-- **A placement makes tables overlap if and only if RT1 takes a peer that RT2
    covers.** -/
theorem overlaps_place {cells : Option Cells} {candidate : Candidate} {first second : Placement}
    (hid : candidate.node.id = id) (hhash : candidate.node.hash = key id)
    (hknown : ∀ kind, ∀ e ∈ (s.tables.get kind).entries, e.hash = key id → e.node.id = id)
    (hcells : ∀ x ∈ cells, Cells.compute self id = .ok x)
    (hp : pair.Places c.excludeRt2Scope cells candidate s.tables t first second)
    (hno : ¬pair.Overlaps s.tables) :
    pair.Overlaps t ↔ pair.TakesCovered s.tables (key id) first := by
  have hw := h.wellFormed
  constructor
  · rintro ⟨e₁, he₁, e₂, he₂, hsame, hlevel⟩
    rcases hp.rt1.mem_entries (hw _) he₁ with hold₁ | ⟨i, a, hfirst, ha, hc₁⟩ <;>
      rcases hp.rt2.mem_entries (hw _) he₂ with hold₂ | ⟨j, b, hsecond, -, hc₂⟩
    · exact absurd ⟨e₁, hold₁, e₂, hold₂, hsame, hlevel⟩ hno
    · -- RT2 looks at RT1, which has the peer
      exfalso
      have hid₁ : e₁.node.id = id := by rw [hsame, hc₂.id]; exact hid
      obtain ⟨huse, x, hx, -⟩ := hp.rt2_considered j b hsecond
      have hfirst := hp.rt1_stored (by rw [Option.mem_def.1 hx]; rfl) (by rw [huse, Bool.or_true])
        ((hw _).contains_iff.2 ⟨e₁, hold₁, by rw [(h.inPlace _ e₁ hold₁).hash, hid₁, hhash]⟩)
      obtain ⟨y, hy, hlt⟩ := hp.rt2_level_lt hcells hsecond (by rw [hfirst]; rfl)
      obtain ⟨cells₁, hcells₁, h₁, -⟩ := h.hasRt1Cell hpair hold₁
      rw [hid₁, hy] at hcells₁
      cases hcells₁
      rw [h₁, hc₂.slot] at hlevel
      exact Nat.ne_of_lt hlt hlevel
    · refine ⟨i, a, hfirst, ha, e₂, hold₂, ?_, ?_⟩
      · rw [(h.inPlace _ e₂ hold₂).hash, ← hsame, hc₁.id]
        exact congrArg key hid
      · rw [hlevel, hc₁.slot]
        rfl
    · -- RT2 looks at RT1, which has just taken the peer
      exfalso
      obtain ⟨y, hy, hlt⟩ := hp.rt2_level_lt hcells hsecond (by rw [hfirst]; exact ha)
      obtain ⟨x, hx, hi, -⟩ := hp.rt1_considered i a hfirst
      have hxy := hcells x hx
      rw [hy] at hxy
      cases hxy
      rw [hc₁.slot, hc₂.slot] at hlevel
      change j.level = i.level at hlevel
      rw [hlevel, hi] at hlt
      exact Nat.lt_irrefl _ hlt
  · rintro ⟨i, a, hfirst, ha, e₂, he₂, hh, hlevel⟩
    obtain ⟨e₁, he₁, hc₁⟩ := hp.rt1.exists_admitted (hw _) hfirst ha
    have hkeep : t.get pair.rt2 = s.tables.get pair.rt2 :=
      hp.rt2.eq_of_contains ((hw _).contains_iff.2 ⟨e₂, he₂, by rw [hh, hhash]⟩)
    refine ⟨e₁, he₁, e₂, by rwa [hkeep], ?_, ?_⟩
    · rw [hc₁.id, hknown _ e₂ he₂ hh]
      exact hid
    · rw [hlevel, hc₁.slot]
      rfl

end

/-! ## One request -/

section
variable (h : Invariant key c self s) (hs : c.shape = .ok self.shape)
include h

theorem continues_of_tends {s' : Service} (ht : s.Tends (fun _ _ _ => False) s') :
    ∀ kind, ∀ e' ∈ (s'.tables.get kind).entries,
      ∃ e ∈ (s.tables.get kind).entries, e'.Continues e :=
  fun kind => (ht.2 kind).continues (h.wellFormed kind)

include hs

/-- **A notification makes tables overlap if and only if RT1 takes a peer that
    RT2 covers.** -/
theorem overlaps_notify (hpair : pair ∈ c.pairs) (id : Identifier) (address : Address)
    (hno : ¬pair.Overlaps s.tables) :
    pair.Overlaps (s.handle key (.notify id address)).1.tables ↔
      ∃ report, (s.notify (.keyed key id address)).2 = .processed report ∧
        pair.TakesCovered s.tables (key id) (report.get pair.rt1) := by
  change pair.Overlaps (s.engine.notify (.keyed key id address) s.now).1.tables ↔
    ∃ report, (s.engine.notify (.keyed key id address) s.now).2 = .processed report ∧
      pair.TakesCovered s.tables (key id) (report.get pair.rt1)
  obtain ⟨reason, hskip, hsame⟩ | ⟨-, -, hconflict, standing, e₀, hstanding, he₀, hout, hsame⟩ :=
    s.engine.notify_cases (.keyed key id address) s.now
  · refine iff_of_false ?_ ?_
    · rw [hsame.tables]
      exact hno
    · rintro ⟨report, hreport, -⟩
      rw [hskip] at hreport
      cases hreport
  -- the peer is placed in the tables with its new address
  generalize hs₁ : (s.handle key (.updateAddress id address)).1 = s₁
  have h₁ : Invariant key c self s₁ := hs₁ ▸ h.handle hs (.updateAddress id address)
  have htables : e₀.tables = s₁.tables := by
    rw [← hs₁]
    exact he₀.tables
  have hedits : ∀ kind, (s₁.tables.get kind).Edits (s.tables.get kind) := by
    rw [← htables, he₀.tables]
    exact fun kind => RoutingTable.edits_updateAddress _ (h.wellFormed kind)
  have hno₁ : ¬pair.Overlaps s₁.tables := fun ho =>
    hno (ho.of_continues fun kind _ he' => (hedits kind).entries_continue he')
  have hknown : ∀ kind, ∀ e ∈ (s₁.tables.get kind).entries, e.hash = key id → e.node.id = id := by
    intro kind e he hh
    obtain ⟨e', he', hc⟩ := (hedits kind).entries_continue he
    rw [hc.id]
    exact Engine.id_eq_of_conflict? h.wellFormed hconflict he' (hc.hash.symm.trans hh)
  obtain ⟨-, -, hcells⟩ := Standing.compute_ok hstanding
  rw [h.self_id] at hcells
  have hconfig : e₀.config = c := he₀.config.trans h.config_eq
  obtain ⟨cells, second, hsub, hp⟩ :=
    (e₀.places_place (.keyed key id address) standing s.now).of_pair (hconfig ▸ hpair)
  rw [hconfig, htables] at hp
  have hplace : pair.Overlaps (e₀.place (.keyed key id address) standing s.now).1.tables ↔
      pair.TakesCovered s₁.tables (key id)
        ((e₀.place (.keyed key id address) standing s.now).2.get pair.rt1) :=
    h₁.overlaps_place hpair rfl rfl hknown (fun x hx => hcells x (hsub x hx)) hp hno₁
  rw [hsame.tables, hplace, hout]
  constructor
  · rintro ⟨i, a, hfirst, ha, e, he, hh, hlevel⟩
    obtain ⟨e', he', hc⟩ := (hedits _).entries_continue he
    exact ⟨_, rfl, i, a, hfirst, ha, e', he', by rw [← hc.hash, hh], by rw [← hc.slot, hlevel]⟩
  · rintro ⟨report, hreport, i, a, hfirst, ha, e, he, hh, hlevel⟩
    cases hreport
    obtain ⟨e', he', hc⟩ := (hedits _).entries_continued he
    exact ⟨i, a, hfirst, ha, e', he', by rw [hc.hash, hh], by rw [hc.slot, hlevel]⟩

theorem separated_notify (hsep : s.tables.Separated c) (id : Identifier) (address : Address) :
    (s.handle key (.notify id address)).1.tables.Separated c ↔ ¬s.TakesCovered key id address := by
  have h' := h.handle hs (.notify id address)
  have hpair : ∀ pair ∈ c.pairs,
      (pair.Separated c.excludeRt2Scope (s.handle key (.notify id address)).1.tables ↔
        ¬∃ report, (s.notify (.keyed key id address)).2 = .processed report ∧
          pair.TakesCovered s.tables (key id) (report.get pair.rt1)) := by
    intro pair hpair
    rw [h'.separated_iff hpair,
      h.overlaps_notify hs hpair id address ((h.separated_iff hpair).1 (hsep pair hpair))]
  rw [Service.TakesCovered, h.config_eq]
  constructor
  · rintro hsep' ⟨report, hreport, pair, hmem, htakes⟩
    exact (hpair pair hmem).1 (hsep' pair hmem) ⟨report, hreport, htakes⟩
  · intro hno pair hmem
    rw [hpair pair hmem]
    rintro ⟨report, hreport, htakes⟩
    exact hno ⟨report, hreport, pair, hmem, htakes⟩

/-- Requests that bring no peers leave separated tables separated. -/
theorem separated_handle (hsep : s.tables.Separated c) {r : Request} (hr : r.peers = []) :
    (s.handle key r).1.tables.Separated c := by
  intro pair hpair
  rw [(h.handle hs r).separated_iff hpair]
  intro ho
  refine (h.separated_iff hpair).1 (hsep pair hpair) (ho.of_continues ?_)
  exact h.continues_of_tends (s.handle_tends hr)

end

end Invariant

/-! ## Runs -/

theorem separated_ofConfig (c : Config) : (RoutingTable.ofConfig c).Separated c := by
  intro pair _
  have hempty : ∀ kind, ∀ e, e ∉ ((RoutingTable.ofConfig c).get kind).entries := by
    intro kind e
    rw [entries_ofConfig]
    exact List.not_mem_nil
  constructor
  · exact fun e₁ he₁ => absurd he₁ (hempty _ e₁)
  · exact fun _ e₁ he₁ => absurd he₁ (hempty _ e₁)

namespace Service

/-- **Peers may arrive one by one.** -/
theorem run_flatMap_singles (key : Identifier → UInt64) (s : Service) (rs : List Request) :
    s.run key (rs.flatMap Request.singles) = s.run key rs := by
  induction rs generalizing s with
  | nil => rfl
  | cons r rs ih =>
    rw [List.flatMap_cons, run_append, run_singles, ih]
    rfl

/-- **When the tables of a node stay separated**: in a run with the peers one by
    one, RT1 never takes a peer at a level at which RT2 has it. -/
theorem run_separated_iff {address : Address} {entropy : WordStream} {now : Timestamp}
    (h : create (.keyed key self address) c entropy now = .ok s) (rs : List Request) :
    s.run key (rs.flatMap Request.singles) = s.run key rs ∧
    ((∀ rs', rs' <+: rs.flatMap Request.singles → (s.run key rs').tables.Separated c) ↔
      ∀ rs' id address, rs' ++ [.notify id address] <+: rs.flatMap Request.singles →
        ¬(s.run key rs').TakesCovered key id address) := by
  refine ⟨run_flatMap_singles key s rs, ?_⟩
  have hstart : Reachable key c self s := .create h
  have hs := hstart.config_valid.2
  have hinv : ∀ rs', Invariant key c self (s.run key rs') := fun rs' => (hstart.run rs').invariant
  constructor
  · intro hall rs' id address hinit
    have hsep' := hall _ hinit
    rw [run_concat] at hsep'
    have hsep := hall rs' ((List.prefix_append _ _).trans hinit)
    exact ((hinv rs').separated_notify hs hsep id address).1 hsep'
  intro hno rs'
  -- the invariant is that the run so far is separated
  induction rs' using List.reverseRecOn with
  | nil =>
    obtain ⟨-, rfl⟩ := create_ok_iff.1 h
    exact fun _ => separated_ofConfig c
  | append_singleton rs' r ih =>
    intro hinit
    have hsep := ih ((List.prefix_append _ _).trans hinit)
    obtain ⟨r₀, -, hr⟩ : ∃ r₀ ∈ rs, r ∈ r₀.singles :=
      List.mem_flatMap.1 (hinit.subset (List.mem_append_right rs' (List.mem_singleton_self r)))
    rw [run_concat]
    rcases Request.of_mem_singles hr with hr | ⟨id, address, rfl⟩
    · exact (hinv rs').separated_handle hs hsep hr
    · exact ((hinv rs').separated_notify hs hsep id address).2 (hno rs' id address hinit)

end Service

/-- A peer comes back when RT1, which declined it for want of room, has room
    again, and RT2 has taken it. -/
def returningPeer : List Request :=
  let peer : Identifier := .ofFn (.mk 2 4) fun i => i == 4
  let other : Identifier := .ofFn (.mk 2 4) fun i => i == 4 || i == 6
  let another : Identifier := .ofFn (.mk 2 4) fun i => i == 4 || i == 7
  [.notify other "10.0.0.1:7000", .notify another "10.0.0.2:7000", .notify peer "10.0.0.3:7000",
    .removePeer other.hash, .notify peer "10.0.0.3:7000"]

theorem not_separated_returningPeer :
    (∃ s, Service.create (.keyed Identifier.hash (.zero (.mk 2 4)) "10.255.0.1:7000") .small
        (.ofSeed 7) (.ofMillis 0) = .ok s ∧
      ¬(s.run Identifier.hash returningPeer).tables.Separated .small) ∧
    ∃ s, Service.create (.keyed Identifier.hash (.zero (.mk 2 4)) "10.255.0.1:7000")
        { Config.small with excludeRt2Scope := true } (.ofSeed 7) (.ofMillis 0) = .ok s ∧
      ¬(s.run Identifier.hash returningPeer).tables.Separated
        { Config.small with excludeRt2Scope := true } := by
  refine ⟨⟨_, Service.create_ok_iff.2 ⟨⟨rfl, rfl⟩, rfl⟩, fun h => ?_⟩,
    ⟨_, Service.create_ok_iff.2 ⟨⟨rfl, rfl⟩, rfl⟩, fun h => ?_⟩⟩
  · have hlt := (h (.primary .small) List.mem_cons_self).level_lt
    revert hlt
    decide +kernel
  · have hdisjoint := (h _ List.mem_cons_self).disjoint rfl
    revert hdisjoint
    decide +kernel

theorem run_separated_iff_returningPeer : ∃ s,
    Service.create (.keyed Identifier.hash (.zero (.mk 2 4)) "10.255.0.1:7000") .small
      (.ofSeed 7) (.ofMillis 0) = .ok s ∧
    ((∀ rs', rs' <+: returningPeer.flatMap Request.singles →
        (s.run Identifier.hash rs').tables.Separated .small) ↔
      ∀ rs' id address, rs' ++ [.notify id address] <+: returningPeer.flatMap Request.singles →
        ¬(s.run Identifier.hash rs').TakesCovered Identifier.hash id address) := by
  have hcreate : Service.create (.keyed Identifier.hash (.zero (.mk 2 4)) "10.255.0.1:7000") .small
      (.ofSeed 7) (.ofMillis 0) = .ok _ := Service.create_ok_iff.2 ⟨⟨rfl, rfl⟩, rfl⟩
  exact ⟨_, hcreate, (Service.run_separated_iff hcreate returningPeer).2⟩

end CubeRouting
