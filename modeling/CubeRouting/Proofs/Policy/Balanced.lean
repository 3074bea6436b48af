/-
  What the balanced policy does to a full slot.

  The fullest buckets may come in any order: an `Arrival` is a candidate with
  the order in which the buckets come when it is offered.

  * `Offer.balancedMoveIn_cases`: a member only makes room if it yields to the
    candidate;
  * `SubTable.WellFormed.receive`: what one arrival does;
  * `SubTable.WellFormed.stays_balanced`: what any sequence of arrivals does.
-/
import CubeRouting.Proofs.Policy.Buckets
import CubeRouting.Proofs.Policy.Distance

namespace CubeRouting

/-! ## Buckets -/

theorem foldl_max_le_iff {l : List Nat} {a m : Nat} :
    l.foldl max a ≤ m ↔ a ≤ m ∧ ∀ x ∈ l, x ≤ m := by
  induction l generalizing a with
  | nil => simp
  | cons x l ih => simp [ih, and_assoc]

/-- A bucket has the number of its members, and its most distant one is one of
    them. -/
theorem Bucket.ofMembers?_spec {members : List (Nat × Binary64)} {b : Bucket}
    (h : ofMembers? members = some b) :
    b.count = members.length ∧ (b.worst, b.distance) ∈ members := by
  have hfold : ∀ (rest : List (Nat × Binary64)) (b₀ : Bucket) {b : Bucket},
      rest.foldl (fun b x => if b.distance.le x.2 then ⟨b.count + 1, x.1, x.2⟩
        else { b with count := b.count + 1 }) b₀ = b →
      b.count = b₀.count + rest.length ∧
        (b.worst, b.distance) ∈ (b₀.worst, b₀.distance) :: rest := by
    intro rest
    induction rest with
    | nil =>
      rintro b₀ b rfl
      simp
    | cons x rest ih =>
      obtain ⟨i, d⟩ := x
      intro b₀ b hb
      rw [List.foldl_cons] at hb
      dsimp only at hb
      split at hb
      · obtain ⟨hcount, hmem⟩ := ih _ hb
        refine ⟨?_, List.mem_cons_of_mem _ hmem⟩
        rw [hcount, List.length_cons, Nat.add_right_comm, Nat.add_assoc]
      · obtain ⟨hcount, hmem⟩ := ih _ hb
        refine ⟨?_, ?_⟩
        · rw [hcount, List.length_cons, Nat.add_right_comm, Nat.add_assoc]
        · rcases List.mem_cons.1 hmem with hold | hmem
          · exact hold ▸ List.mem_cons_self
          · exact List.mem_cons_of_mem _ (List.mem_cons_of_mem _ hmem)
  cases members with
  | nil => cases h
  | cons x rest =>
    obtain ⟨i, d⟩ := x
    obtain ⟨hcount, hmem⟩ := hfold rest ⟨1, i, d⟩ (Option.some.inj h)
    exact ⟨by rw [hcount, List.length_cons, Nat.add_comm], hmem⟩

namespace Balanced

variable {p : Partition} {self : Identifier} {members : List Entry} {b own : Nat}

theorem mem_bucketed_iff {i : Nat} {d : Binary64} :
    (b, i, d) ∈ bucketed p self members ↔
      ∃ e, members[i]? = some e ∧ p.bucket? self e = some b ∧ e.distance = d := by
  simp only [bucketed, List.mem_filterMap, Prod.exists, List.mem_zipIdx_iff_getElem?]
  constructor
  · rintro ⟨e, j, hj, h⟩
    split at h
    · rename_i b' hb'
      cases h
      exact ⟨e, hj, Partition.bucket?_eq_some_iff.2 hb', rfl⟩
    · cases h
  · rintro ⟨e, hi, hb, rfl⟩
    refine ⟨e, i, hi, ?_⟩
    rw [Partition.bucket?_eq_some_iff.1 hb]

theorem length_bucketed (b : Nat) :
    (((bucketed p self members).filter (·.1 == b)).map (·.2)).length = p.count self members b := by
  have hzip : p.count self members b =
      members.zipIdx.countP fun x => p.bucket? self x.1 == some b := by
    rw [← Function.comp_def (fun e => p.bucket? self e == some b), ← List.countP_map,
      List.zipIdx_map_fst, Partition.count]
  rw [List.length_map, ← List.countP_eq_length_filter, bucketed, List.countP_filterMap, hzip]
  refine List.countP_congr fun x _ => ?_
  obtain ⟨e, i⟩ := x
  rw [beq_iff_eq, Partition.bucket?_eq_some_iff]
  cases hb : p.bucket self e.node.id <;> simp [hb]

/-- The bucket with a number, if it has members. -/
theorem bucketAt?_spec {bucket : Bucket} (h : bucketAt? (bucketed p self members) b = some bucket) :
    bucket.count = p.count self members b ∧ ∃ w, members[bucket.worst]? = some w ∧
      p.bucket? self w = some b ∧ w.distance = bucket.distance := by
  obtain ⟨hcount, hmem⟩ := Bucket.ofMembers?_spec h
  rw [length_bucketed] at hcount
  obtain ⟨⟨k, i, d⟩, hfilter, heq⟩ := List.mem_map.1 hmem
  obtain ⟨hin, hk⟩ := List.mem_filter.1 hfilter
  obtain rfl : k = b := beq_iff_eq.1 hk
  cases heq
  exact ⟨hcount, mem_bucketed_iff.1 hin⟩

theorem count_of_bucketAt?_eq_none (h : bucketAt? (bucketed p self members) b = none) :
    p.count self members b = 0 := by
  rw [← length_bucketed, List.length_eq_zero_iff]
  rw [bucketAt?] at h
  cases hm : ((bucketed p self members).filter (·.1 == b)).map (·.2) with
  | nil => rfl
  | cons x rest =>
    rw [hm] at h
    cases h

/-- The buckets that come are those that have members. -/
theorem mem_buckets_iff {bucket : Bucket} : bucket ∈ buckets (bucketed p self members) ↔
    ∃ b, bucketAt? (bucketed p self members) b = some bucket := by
  rw [buckets, List.mem_filterMap]
  constructor
  · rintro ⟨b, -, h⟩
    exact ⟨b, h⟩
  · rintro ⟨b, h⟩
    refine ⟨b, ?_, h⟩
    obtain ⟨-, w, hw, hb, hd⟩ := bucketAt?_spec h
    rw [List.mem_eraseDups]
    exact List.mem_map.2 ⟨_, mem_bucketed_iff.2 ⟨w, hw, hb, hd⟩, rfl⟩

/-- The largest number of members in a bucket, whatever order the buckets come
    in. -/
theorem foldl_max_counts {all : List Bucket} (h : all.Perm (buckets (bucketed p self members))) :
    (all.map (·.count)).foldl max 0 = p.largest self members := by
  refine eq_of_forall_ge_iff fun m => ?_
  rw [foldl_max_le_iff, Partition.largest, Finset.sup_le_iff]
  simp only [Nat.zero_le, true_and, List.mem_map, forall_exists_index, and_imp,
    h.mem_iff, mem_buckets_iff, Finset.mem_range]
  constructor
  · intro hall b hb
    cases hbucket : bucketAt? (bucketed p self members) b with
    | none =>
      rw [count_of_bucketAt?_eq_none hbucket]
      exact Nat.zero_le m
    | some bucket =>
      rw [← (bucketAt?_spec hbucket).1]
      exact hall _ bucket b hbucket rfl
  · rintro hall _ bucket b hbucket rfl
    obtain ⟨hcount, w, -, hw, -⟩ := bucketAt?_spec hbucket
    rw [hcount]
    exact hall b (Partition.bucket_lt (Partition.bucket?_eq_some_iff.1 hw))

theorem worstOfFullest_spec {all : List Bucket} {most i : Nat} {d : Binary64}
    (h : worstOfFullest all most = some (i, d)) :
    ∃ bucket ∈ all, bucket.count = most ∧ bucket.worst = i ∧ bucket.distance = d := by
  rw [worstOfFullest] at h
  split at h
  · cases h
  · rename_i k d' hbest
    obtain ⟨bucket, hk, heq⟩ := Option.map_eq_some_iff.1 h
    cases heq
    have hd := getElem?_champion hbest
    rw [List.getElem?_map, hk] at hd
    obtain ⟨hin, hcount⟩ := List.mem_filter.1 (List.mem_of_getElem? hk)
    exact ⟨bucket, hin, beq_iff_eq.1 hcount, rfl, Option.some.inj hd⟩

theorem member_of_worstOfFullest {all : List Bucket} {i : Nat} {d : Binary64}
    (hperm : all.Perm (buckets (bucketed p self members)))
    (h : worstOfFullest all (p.largest self members) = some (i, d)) :
    ∃ w b, members[i]? = some w ∧ w.distance = d ∧ p.bucket? self w = some b ∧
      p.count self members b = p.largest self members := by
  obtain ⟨bucket, hin, hmost, rfl, rfl⟩ := worstOfFullest_spec h
  obtain ⟨b, hb⟩ := mem_buckets_iff.1 (hperm.mem_iff.1 hin)
  obtain ⟨hcount, w, hw, hwb, hd⟩ := bucketAt?_spec hb
  exact ⟨w, b, hw, hd, hwb, hcount.symm.trans hmost⟩

/-! ## Moves -/

/-- An order in which the buckets of a slot may come. -/
structure BucketOrder where
  arrange : List Bucket → List Bucket
  perm : ∀ all, (arrange all).Perm all

namespace BucketOrder

/-- The order of the first members. -/
def plain : BucketOrder := ⟨id, fun _ => .refl _⟩

variable (order : BucketOrder)

/-- The member that has to make room for a candidate of bucket `own`. -/
def victim? (p : Partition) (self : Identifier) (members : List Entry) (own : Nat) :
    Option Victim :=
  let placed := bucketed p self members
  victimAmong (order.arrange (buckets placed)) (bucketAt? placed own)

/-- **The member that has to make room** is one of a fullest bucket. -/
theorem victim?_spec {v : Victim} (h : order.victim? p self members own = some v) :
    ∃ w b, members[v.position]? = some w ∧ w.distance = v.distance ∧
      p.bucket? self w = some b ∧ p.count self members b = p.largest self members ∧
      (b = own ∨ p.count self members own < p.largest self members) ∧
      (v.mustImprove = true ∨ p.count self members own + 1 < p.largest self members) := by
  simp only [victim?, victimAmong, foldl_max_counts (order.perm _)] at h
  cases hown : bucketAt? (bucketed p self members) own with
  | some bucket =>
    obtain ⟨hcount, w, hw, hwb, hd⟩ := bucketAt?_spec hown
    rw [hown] at h
    dsimp only at h
    split at h
    · rename_i hmost
      cases h
      exact ⟨w, own, hw, hd, hwb, hcount.symm.trans hmost, Or.inl rfl, Or.inl rfl⟩
    · rename_i hless
      obtain ⟨⟨i, d⟩, hworst, rfl⟩ := Option.map_eq_some_iff.1 h
      obtain ⟨w', b, hw', hd', hb, hmost⟩ := member_of_worstOfFullest (order.perm _) hworst
      have hle := Partition.count_le_largest members
        (Partition.bucket_lt (Partition.bucket?_eq_some_iff.1 hwb))
      refine ⟨w', b, hw', hd', hb, hmost, Or.inr (by omega), ?_⟩
      simp only [decide_eq_true_eq]
      omega
  | none =>
    have hzero := count_of_bucketAt?_eq_none hown
    rw [hown] at h
    obtain ⟨⟨i, d⟩, hworst, rfl⟩ := Option.map_eq_some_iff.1 h
    obtain ⟨w, b, hw, hd, hb, hmost⟩ := member_of_worstOfFullest (order.perm _) hworst
    have hpos : 0 < p.count self members b :=
      List.countP_pos_iff.2 ⟨w, List.mem_of_getElem? hw, beq_iff_eq.2 hb⟩
    refine ⟨w, b, hw, hd, hb, hmost, Or.inr (by omega), ?_⟩
    simp only [decide_eq_true_eq]
    omega

end BucketOrder

end Balanced

open CubeRouting.Balanced

/-- The closest peers stay, spread over the buckets, which come in any order. -/
def Offer.balancedMoveIn (o : Offer) (p : Partition) (order : BucketOrder) : Move :=
  match p.bucket o.candidate.self o.candidate.node.id with
  | .error _ => .decline
  | .ok own =>
    if !o.isFull then .insert (sortedPosition o.members o.candidate.distance)
    else
      match order.victim? p o.candidate.self o.members own with
      | none => .decline
      | some v => o.balancedSwap v

/-- **The move on a full slot**: nothing, or the candidate in place of a member
    that yields to it. -/
theorem Offer.balancedMoveIn_cases {o : Offer} {p : Partition} (order : BucketOrder)
    (hfull : o.isFull = true) (hnan : o.candidate.distance.isNaN = false) :
    o.balancedMoveIn p order = .decline ∨
      ∃ v w own position, o.balancedMoveIn p order = .replace v position ∧
        o.members[v]? = some w ∧ p.bucket o.candidate.self o.candidate.node.id = .ok own ∧
        p.Yields o.candidate.self o.members w own o.candidate.distance := by
  rw [balancedMoveIn]
  cases hb : p.bucket o.candidate.self o.candidate.node.id with
  | error fault => exact Or.inl rfl
  | ok own =>
    dsimp only
    rw [hfull, Bool.not_true, if_neg Bool.false_ne_true]
    cases hv : order.victim? p o.candidate.self o.members own with
    | none => exact Or.inl rfl
    | some v =>
      obtain ⟨w, b, hw, hd, hwb, hmost, hown, hfurther⟩ := order.victim?_spec hv
      dsimp only [balancedSwap]
      split
      · exact Or.inl rfl
      · rename_i hswap
        refine Or.inr ⟨v.position, w, own, _, rfl, hw, rfl, ⟨b, hwb, hmost, hown⟩, ?_⟩
        refine hfurther.imp_left fun himprove => ?_
        rw [himprove, Bool.true_and, Bool.not_eq_true, ← hd] at hswap
        exact Binary64.place_lt_of_not_le hnan hswap

/-! ## Arrivals -/

/-- A candidate, and the order of the buckets when it is offered. -/
structure Arrival where
  candidate : Candidate
  order : BucketOrder

namespace SubTable

variable {t : SubTable} {p : Partition} {self : Identifier} {i : SlotIndex}

/-- A table after a candidate was offered to one of its slots, and what came of
    it. -/
def receive (t : SubTable) (p : Partition) (i : SlotIndex) (a : Arrival) :
    SubTable × Admission :=
  let o : Offer :=
    { candidate := a.candidate
      slot := ⟨t.kind, i⟩
      members := t.slot i
      capacity := t.capacity
      stored := t.contains a.candidate.node.hash }
  t.carryOut ⟨o.unlessStored (o.balancedMoveIn p a.order), o.entry⟩

/-- The table after a number of arrivals. -/
def afterArrivals (t : SubTable) (p : Partition) (i : SlotIndex) (arrivals : ℕ → Arrival) :
    ℕ → SubTable
  | 0 => t
  | n + 1 => ((t.afterArrivals p i arrivals n).receive p i (arrivals n)).1

/-- An offer under the balanced policy is an arrival. -/
theorem offer_balanced (t : SubTable) (p : Partition) (i : SlotIndex) (candidate : Candidate) :
    t.offer (.balanced p) candidate i = ((t.receive p i ⟨candidate, .plain⟩).1, .balanced p,
      (t.receive p i ⟨candidate, .plain⟩).2) := rfl

section
variable (hw : t.WellFormed)
include hw

/-- A slot is a member and the slot without it. -/
theorem WellFormed.perm_cons_remove {w : Entry} (hmem : w ∈ t.slot i) :
    (t.slot i).Perm (w :: (t.remove w.hash).1.slot i) := by
  have hnodup : (t.slot i).Nodup := (hw.nodup i).of_map
  have herase : (t.remove w.hash).1.slot i = (t.slot i).erase w := by
    rw [hw.slot_remove, hnodup.erase_eq_filter]
    refine List.filter_congr fun e he => ?_
    rw [Bool.eq_iff_iff, bne_iff_ne, bne_iff_ne, not_iff_not]
    exact ⟨hw.eq_of_hash he hmem, congrArg Entry.hash⟩
  rw [herase]
  exact List.perm_cons_erase hmem

/-- **What an arrival does to a full slot**: it is declined, or a member that
    yields to the candidate makes room for it. -/
theorem WellFormed.receive_cases (hfull : (t.slot i).length = t.capacity) (p : Partition)
    (a : Arrival) (hnan : a.candidate.distance.isNaN = false) :
    t.receive p i a = (t, .declined) ∨
      ∃ w e own rest, (t.receive p i a).2 = .replaced w.hash ∧
        (t.receive p i a).1.WellFormed ∧ (t.receive p i a).1.SameGrid t ∧
        (t.slot i).Perm (w :: rest) ∧ ((t.receive p i a).1.slot i).Perm (e :: rest) ∧
        p.bucket? a.candidate.self e = some own ∧
        p.Yields a.candidate.self (t.slot i) w own e.distance := by
  let o : Offer := t.offerOf a.candidate i
  have hreceive : t.receive p i a = t.carryOut ⟨o.unlessStored (o.balancedMoveIn p a.order),
    o.entry⟩ := rfl
  rw [hreceive, Offer.unlessStored]
  split
  · exact Or.inl rfl
  rename_i hstored
  have hnew : t.contains o.entry.hash = false := eq_false_of_ne_true hstored
  rcases o.balancedMoveIn_cases a.order (decide_eq_true hfull.ge) hnan with
    hmove | ⟨v, w, own, position, hmove, hv, hb, hyields⟩
  · rw [hmove]
    exact Or.inl rfl
  have hmem : w ∈ t.slot i := List.mem_of_getElem? hv
  have haccepts : (t.remove w.hash).1.accepts o.entry = true := hw.accepts_remove hmem hnew
  rw [hmove, carryOut_replace hv hnew]
  refine Or.inr ⟨w, o.entry, own, (t.remove w.hash).1.slot i, rfl,
    hw.insert_remove w.hash position rfl (hw.inGrid i w hmem) rfl,
    t.sameGrid_insert_remove w.hash position o.entry, hw.perm_cons_remove hmem, ?_,
    Partition.bucket?_eq_some_iff.2 hb, hyields⟩
  rw [slot_insert haccepts, if_pos (show o.entry.slot.index = i from rfl)]
  exact List.perm_insertIdx _ _ (Nat.min_le_right _ _)

end

/-! ## Any number of arrivals -/

/-- A table with a full slot after an arrival. -/
structure Settles (p : Partition) (center : Identifier) (i : SlotIndex) (t t' : SubTable) :
    Prop where
  wellFormed : t'.WellFormed
  full : (t'.slot i).length = t'.capacity
  capacity : t'.capacity = t.capacity
  gap : p.gap center (t'.slot i) ≤ p.gap center (t.slot i)
  load : p.load center (t'.slot i) ≤ p.load center (t.slot i)

/-- **One arrival**: the slot stays full and its gap does not widen.  Whenever a
    member makes room the load decreases. -/
theorem WellFormed.receive (hw : t.WellFormed) (hfull : (t.slot i).length = t.capacity)
    (p : Partition) (a : Arrival) (hnan : a.candidate.distance.isNaN = false) :
    Settles p a.candidate.self i t (t.receive p i a).1 ∧
      (∀ hash, (t.receive p i a).2 = .replaced hash →
        p.load a.candidate.self ((t.receive p i a).1.slot i) <
          p.load a.candidate.self (t.slot i)) := by
  rcases hw.receive_cases hfull p a hnan with
    h | ⟨w, e, own, rest, h, hw', hgrid, hold, hnew, hb, hyields⟩
  · rw [h]
    exact ⟨⟨hw, hfull, rfl, le_rfl, le_rfl⟩, fun hash hrep => by cases hrep⟩
  · have hload := hyields.load_lt hold hnew hb
    have hlength := hnew.length_eq.trans hold.length_eq.symm
    exact ⟨⟨hw', hlength.trans (hfull.trans hgrid.capacity.symm), hgrid.capacity,
      hyields.gap_le hold hnew hb, hload.le⟩, fun _ _ => hload⟩

theorem Settles.trans {t' t'' : SubTable} (h : Settles p self i t t')
    (h' : Settles p self i t' t'') : Settles p self i t t'' :=
  ⟨h'.wellFormed, h'.full, h'.capacity.trans h.capacity, h'.gap.trans h.gap,
    h'.load.trans h.load⟩

/-- The arrivals that took the place of a member. -/
def replacements (t : SubTable) (p : Partition) (i : SlotIndex) (arrivals : ℕ → Arrival) : Set ℕ :=
  {n | ∃ hash, ((t.afterArrivals p i arrivals n).receive p i (arrivals n)).2 = .replaced hash}

section
variable (hw : t.WellFormed) (hfull : (t.slot i).length = t.capacity) (p : Partition)
  {arrivals : ℕ → Arrival} (hself : ∀ n, (arrivals n).candidate.self = self)
  (hnan : ∀ n, (arrivals n).candidate.distance.isNaN = false)
include hw hfull hself hnan

theorem settles_afterArrivals (n : ℕ) :
    Settles p self i t (t.afterArrivals p i arrivals n) := by
  induction n with
  | zero => exact ⟨hw, hfull, rfl, le_rfl, le_rfl⟩
  | succ n ih =>
    have hstep := (ih.wellFormed.receive ih.full p (arrivals n) (hnan n)).1
    rw [hself] at hstep
    exact ih.trans hstep

/-- Every arrival settles a slot that is full, as it is after any number of
    them. -/
theorem settles_receive (n : ℕ) :
    Settles p self i (t.afterArrivals p i arrivals n) (t.afterArrivals p i arrivals (n + 1)) ∧
      (n ∈ t.replacements p i arrivals →
        p.load self ((t.afterArrivals p i arrivals (n + 1)).slot i) <
          p.load self ((t.afterArrivals p i arrivals n).slot i)) := by
  have hn := settles_afterArrivals hw hfull p hself hnan n
  obtain ⟨hstep, hload⟩ := hn.wellFormed.receive hn.full p (arrivals n) (hnan n)
  rw [hself] at hstep hload
  exact ⟨hstep, fun ⟨hash, h⟩ => hload hash h⟩

/-- **Members make room finitely often.** -/
theorem finite_replacements : (t.replacements p i arrivals).Finite := by
  let load : ℕ → ℕ ×ₗ List (WithTop Int) :=
    fun n => p.load self ((t.afterArrivals p i arrivals n).slot i)
  have hstep := settles_receive hw hfull p hself hnan
  have hanti : Antitone load := antitone_nat_of_succ_le fun n => (hstep n).1.load
  have hlt : StrictAntiOn load (t.replacements p i arrivals) :=
    fun m hm n _ hmn => (hanti hmn).trans_lt ((hstep m).2 hm)
  -- a load is not met twice, and there are finitely many that the slot may have
  refine Set.Finite.of_injOn (fun n _ => ?_) hlt.injOn
    (Partition.finite_loads p self (p.squares self (t.slot i)) t.capacity)
  have hn := settles_afterArrivals hw hfull p hself hnan n
  exact ⟨_, hn.full.trans hn.capacity, Partition.squares_le_of_load_le hn.load, rfl⟩

/-- **The balanced policy** takes any candidates to a full slot, one by one and
    with the fullest buckets in any order.  The slot stays full, the gap between
    its buckets does not widen, and so it stays at most one from then on.
    Whenever a member makes room the load decreases, so this happens finitely
    often. -/
theorem WellFormed.stays_balanced :
    (∀ (u : SubTable) (candidate : Candidate), u.offer (.balanced p) candidate i =
      ((u.receive p i ⟨candidate, .plain⟩).1, .balanced p,
        (u.receive p i ⟨candidate, .plain⟩).2)) ∧
    (∀ n, ((t.afterArrivals p i arrivals n).slot i).length = t.capacity) ∧
    (∀ m n, m ≤ n → p.gap self ((t.afterArrivals p i arrivals n).slot i) ≤
      p.gap self ((t.afterArrivals p i arrivals m).slot i)) ∧
    (∀ m n, m ≤ n → p.gap self ((t.afterArrivals p i arrivals m).slot i) ≤ 1 →
      p.gap self ((t.afterArrivals p i arrivals n).slot i) ≤ 1) ∧
    (∀ n hash, ((t.afterArrivals p i arrivals n).receive p i (arrivals n)).2 = .replaced hash →
      p.load self ((t.afterArrivals p i arrivals (n + 1)).slot i) <
        p.load self ((t.afterArrivals p i arrivals n).slot i)) ∧
    {n | ∃ hash, ((t.afterArrivals p i arrivals n).receive p i (arrivals n)).2 =
      .replaced hash}.Finite := by
  have hstep := settles_receive hw hfull p hself hnan
  have hgap : Antitone fun n => p.gap self ((t.afterArrivals p i arrivals n).slot i) :=
    antitone_nat_of_succ_le fun n => (hstep n).1.gap
  refine ⟨fun u candidate => u.offer_balanced p i candidate, fun n => ?_,
    fun m n hmn => hgap hmn, fun m n hmn h => (hgap hmn).trans h,
    fun n hash h => (hstep n).2 ⟨hash, h⟩, finite_replacements hw hfull p hself hnan⟩
  have hn := settles_afterArrivals hw hfull p hself hnan n
  exact hn.full.trans hn.capacity

end

/-- A distant peer that comes to a slot whose members are all in the other
    semiring. -/
theorem stays_balanced_distantPeer : ∃ (t : SubTable) (self : Identifier) (far : Arrival),
    t.WellFormed ∧ (t.slot SlotRef.ns.index).length = t.capacity ∧
    far.candidate.distance.isNaN = false ∧
    Partition.semirings.gap self (t.slot SlotRef.ns.index) = 2 ∧
    (∃ hash, (t.receive .semirings SlotRef.ns.index far).2 = .replaced hash) ∧
    (∀ n, 1 ≤ n → Partition.semirings.gap self
      ((t.afterArrivals .semirings SlotRef.ns.index (fun _ => far) n).slot SlotRef.ns.index) ≤ 1) ∧
    {n | ∃ hash, ((t.afterArrivals .semirings SlotRef.ns.index (fun _ => far) n).receive .semirings
      SlotRef.ns.index far).2 = .replaced hash}.Finite := by
  let self : Identifier := .zero (.mk 2 4)
  let candidate (bits : Nat → Bool) (distance : UInt64) : Candidate :=
    { node := .keyed Identifier.hash (.ofFn (.mk 2 4) bits) "10.0.0.2:7000"
      self := self
      distance := ⟨distance⟩
      time := .ofMillis 0 }
  let t : SubTable :=
    (((SubTable.empty .ns 1 1 2).offer (.balanced .semirings)
      (candidate (· == 5) 0x3ff0000000000000) SlotRef.ns.index).1.offer (.balanced .semirings)
      (candidate (· == 6) 0x4000000000000000) SlotRef.ns.index).1
  let far : Arrival := ⟨candidate (fun _ => true) 0x4010000000000000, .plain⟩
  have hw : t.WellFormed :=
    ((wellFormed_empty .ns 1 1 2).offer _ _ ⟨by decide, by decide⟩).offer _ _
      ((sameGrid_offer ..).inGrid_iff.2 ⟨by decide, by decide⟩)
  have hfull : (t.slot SlotRef.ns.index).length = t.capacity := by decide +kernel
  have hself : ∀ n : ℕ, ((fun _ => far : ℕ → Arrival) n).candidate.self = self := fun _ => rfl
  have hnan : far.candidate.distance.isNaN = false := by decide +kernel
  obtain ⟨-, -, -, hgap, -, hfinite⟩ := hw.stays_balanced hfull .semirings hself fun _ => hnan
  refine ⟨t, self, far, hw, hfull, hnan, by decide +kernel, ?_, fun n hn => ?_, hfinite⟩
  · exact ⟨(candidate (· == 6) 0).node.hash, by decide +kernel⟩
  · exact hgap 1 n hn (by decide +kernel)

end SubTable

end CubeRouting
