/-
  The order of the members under the balanced policy.

  Members are sorted by distance, and those at one distance by the time of their
  admission.  `AdmittedBefore` reads this from a log of all admissions, since a
  peer that left may have come back.

  * `InOrder.sublist`, `InOrder.insert`: what leaves a slot in order;
  * `bisectPosition_eq`: a binary search among members in order ends at
    `sortedPosition`;
  * `SubTable.WellFormed.inOrder_receive`: what one arrival does.
-/
import CubeRouting.Proofs.Policy.Balanced

namespace CubeRouting

/-! ## Lists -/

section
variable {α : Type} {p : α → Bool} {l : List α} {a : α} {i : Nat}

theorem length_takeWhile_le (p : α → Bool) (l : List α) : (l.takeWhile p).length ≤ l.length :=
  (List.takeWhile_prefix p).length_le

/-- An element that is put behind those that satisfy a condition. -/
theorem insertIdx_takeWhile (p : α → Bool) (l : List α) (a : α) :
    l.insertIdx (l.takeWhile p).length a = l.takeWhile p ++ a :: l.dropWhile p := by
  induction l with
  | nil => rfl
  | cons b l ih =>
    by_cases hb : p b = true
    · rw [List.takeWhile_cons_of_pos hb, List.dropWhile_cons_of_pos hb, List.length_cons,
        List.insertIdx_succ_cons, ih, List.cons_append]
    · rw [List.takeWhile_cons_of_neg hb, List.dropWhile_cons_of_neg hb]
      rfl

theorem pairwise_insertIdx_takeWhile {R : α → α → Prop} (h : l.Pairwise R)
    (hbefore : ∀ b ∈ l.takeWhile p, R b a) (hafter : ∀ b ∈ l.dropWhile p, R a b) :
    (l.insertIdx (l.takeWhile p).length a).Pairwise R := by
  have hsplit : (l.takeWhile p ++ l.dropWhile p).Pairwise R := by
    rwa [List.takeWhile_append_dropWhile]
  obtain ⟨hfirst, hrest, hcross⟩ := List.pairwise_append.1 hsplit
  rw [insertIdx_takeWhile, List.pairwise_append, List.pairwise_cons]
  refine ⟨hfirst, ⟨hafter, hrest⟩, fun b hb b' hb' => ?_⟩
  rcases List.mem_cons.1 hb' with rfl | hb'
  · exact hbefore b hb
  · exact hcross b hb b' hb'

section
variable (h : l.Pairwise fun a b => p b = true → p a = true)
include h

/-- A condition that later elements pass on to earlier ones does not come back
    once it fails. -/
theorem not_of_mem_dropWhile (ha : a ∈ l.dropWhile p) : p a = false := by
  induction l with
  | nil => cases ha
  | cons b l ih =>
    obtain ⟨hfirst, hrest⟩ := List.pairwise_cons.1 h
    by_cases hb : p b = true
    · rw [List.dropWhile_cons_of_pos hb] at ha
      exact ih hrest ha
    · rw [List.dropWhile_cons_of_neg hb] at ha
      rcases List.mem_cons.1 ha with rfl | ha
      · exact eq_false_of_ne_true hb
      · exact eq_false_of_ne_true fun hpa => hb (hfirst a ha hpa)

/-- It holds of the elements before the first where it fails. -/
theorem getElem_iff_lt_takeWhile (hi : i < l.length) :
    p l[i] = true ↔ i < (l.takeWhile p).length := by
  have happend : l[i]? = (l.takeWhile p ++ l.dropWhile p)[i]? := by
    rw [List.takeWhile_append_dropWhile]
  rw [List.getElem?_eq_getElem hi, List.getElem?_append] at happend
  split at happend
  · rename_i hlt
    exact iff_of_true (List.mem_takeWhile_imp (List.mem_of_getElem? happend.symm)) hlt
  · rename_i hge
    refine iff_of_false ?_ hge
    rw [not_of_mem_dropWhile h (List.mem_of_getElem? happend.symm)]
    exact Bool.false_ne_true

end

end

/-! ## Binary search -/

/-- Binary search between two positions for the first where `p` fails. -/
def bisect (p : Nat → Bool) (lo hi : Nat) : Nat :=
  if lo < hi then
    let mid := lo + (hi - lo) / 2
    if p mid then bisect p (mid + 1) hi else bisect p lo mid
  else lo
termination_by hi - lo

/-- **Binary search finds the position** up to which `p` holds, if it fails from
    there on. -/
theorem bisect_eq {p : Nat → Bool} {lo hi k : Nat} (hlo : lo ≤ k) (hhi : k ≤ hi)
    (h : ∀ i < hi, p i = true ↔ i < k) : bisect p lo hi = k := by
  fun_induction bisect p lo hi with
  | case1 lo hi hlt mid hmid ih =>
    have hbelow : mid < k := (h mid (by omega)).1 hmid
    exact ih hbelow hhi h
  | case2 lo hi hlt mid hmid ih =>
    have habove : k ≤ mid := Nat.not_lt.1 fun hlt' => hmid ((h mid (by omega)).2 hlt')
    exact ih hlo habove fun i hi => h i (by omega)
  | case3 lo hi hge => omega

/-- The position that a binary search finds for a distance among the members of
    a slot. -/
def bisectPosition (members : List Entry) (distance : Binary64) : Nat :=
  bisect (fun i => members[i]?.any fun e => e.distance.le distance) 0 members.length

/-! ## The order of the members -/

/-- In a log of admissions, the last one of `a` was before the last one of
    `b`. -/
def AdmittedBefore (log : List UInt64) (a b : UInt64) : Prop :=
  a ∈ log ∧ log.reverse.idxOf b < log.reverse.idxOf a

/-- A peer, with its distance, comes before another one: it is closer, or as far
    and was admitted before. -/
def Precedes (log : List UInt64) (x y : UInt64 × Binary64) : Prop :=
  x.2.lt y.2 = true ∨ x.2.numEq y.2 = true ∧ AdmittedBefore log x.1 y.1

/-- The members of a slot with their distances. -/
def distances (members : List Entry) : List (UInt64 × Binary64) :=
  members.map fun e => (e.hash, e.distance)

/-- The members are sorted by distance, then by the time of their last
    admission. -/
structure InOrder (log : List UInt64) (xs : List (UInt64 × Binary64)) : Prop where
  pairwise : xs.Pairwise (Precedes log)
  admitted : ∀ x ∈ xs, x.1 ∈ log
  numbers : ∀ x ∈ xs, x.2.isNaN = false

section
variable {log : List UInt64} {xs ys : List (UInt64 × Binary64)} {hash a b : UInt64}
  {d : Binary64}

theorem idxOf_reverse_concat_of_ne (hne : a ≠ hash) :
    (log ++ [hash]).reverse.idxOf a = log.reverse.idxOf a + 1 := by
  rw [List.reverse_append, List.reverse_singleton, List.singleton_append,
    List.idxOf_cons_ne _ hne.symm]

/-- Later admissions of others do not matter. -/
theorem AdmittedBefore.concat (h : AdmittedBefore log a b) (ha : a ≠ hash) (hb : b ≠ hash) :
    AdmittedBefore (log ++ [hash]) a b := by
  refine ⟨List.mem_append_left _ h.1, ?_⟩
  rw [idxOf_reverse_concat_of_ne ha, idxOf_reverse_concat_of_ne hb]
  exact Nat.succ_lt_succ h.2

/-- What is admitted now was admitted after all others. -/
theorem admittedBefore_last (hmem : a ∈ log) (ha : a ≠ hash) :
    AdmittedBefore (log ++ [hash]) a hash := by
  refine ⟨List.mem_append_left _ hmem, ?_⟩
  rw [idxOf_reverse_concat_of_ne ha, List.reverse_append, List.reverse_singleton,
    List.singleton_append, List.idxOf_cons_self]
  exact Nat.succ_pos _

theorem Precedes.line_le {x y : UInt64 × Binary64} (h : Precedes log x y)
    (hx : x.2.isNaN = false) (hy : y.2.isNaN = false) : x.2.line ≤ y.2.line := by
  rcases h with hlt | ⟨heq, -⟩
  · exact ((Binary64.lt_iff_line hx hy).1 hlt).le
  · exact ((Binary64.numEq_iff_line hx).1 heq).le

theorem InOrder.nil (log : List UInt64) : InOrder log [] := ⟨.nil, nofun, nofun⟩

/-- Nobody is admitted. -/
theorem InOrder.append_nil (h : InOrder log xs) : InOrder (log ++ []) xs := by
  rwa [List.append_nil]

/-- **Members that leave** do not change the order of the others. -/
theorem InOrder.sublist (h : InOrder log ys) (hsub : xs.Sublist ys) : InOrder log xs where
  pairwise := h.pairwise.sublist hsub
  admitted x hx := h.admitted x (hsub.subset hx)
  numbers x hx := h.numbers x (hsub.subset hx)

/-- Farther members are behind closer ones. -/
theorem InOrder.pairwise_le (h : InOrder log xs) (hd : d.isNaN = false) :
    xs.Pairwise fun x y => y.2.le d = true → x.2.le d = true := by
  refine h.pairwise.imp_of_mem fun {x y} hx hy hxy hle => ?_
  have hnx := h.numbers x hx
  have hny := h.numbers y hy
  rw [Binary64.le_iff_line hny hd] at hle
  rw [Binary64.le_iff_line hnx hd]
  exact (hxy.line_le hnx hny).trans hle

/-- Admissions of other peers do not change the order. -/
theorem InOrder.concat (h : InOrder log xs) (hnew : hash ∉ xs.map Prod.fst) :
    InOrder (log ++ [hash]) xs where
  pairwise := by
    have hne : ∀ x ∈ xs, x.1 ≠ hash := fun x hx hh => hnew (List.mem_map.2 ⟨x, hx, hh⟩)
    refine h.pairwise.imp_of_mem fun {x y} hx hy hxy => ?_
    exact hxy.imp_right fun htie => ⟨htie.1, htie.2.concat (hne x hx) (hne y hy)⟩
  admitted x hx := List.mem_append_left _ (h.admitted x hx)
  numbers := h.numbers

/-- **A peer that is admitted** gets its place behind all members that are not
    farther. -/
theorem InOrder.insert (h : InOrder log xs) (hnew : hash ∉ xs.map Prod.fst)
    (hd : d.isNaN = false) :
    InOrder (log ++ [hash]) (xs.insertIdx (xs.takeWhile fun x => x.2.le d).length (hash, d)) := by
  have hlater := h.concat hnew
  have hclose : ∀ x ∈ xs.takeWhile fun x => x.2.le d, Precedes (log ++ [hash]) x (hash, d) := by
    intro x hx
    have hmem := (List.takeWhile_sublist _).subset hx
    have hle := List.mem_takeWhile_imp hx
    have hne : x.1 ≠ hash := fun hh => hnew (List.mem_map.2 ⟨x, hmem, hh⟩)
    rw [Binary64.le, Bool.or_eq_true] at hle
    exact hle.imp_right fun heq => ⟨heq, admittedBefore_last (h.admitted x hmem) hne⟩
  have hfar : ∀ x ∈ xs.dropWhile fun x => x.2.le d, Precedes (log ++ [hash]) (hash, d) x := by
    intro x hx
    have hmem := (List.dropWhile_sublist _).subset hx
    have hnot := not_of_mem_dropWhile (h.pairwise_le hd) hx
    have hnx := h.numbers x hmem
    rw [← Bool.not_eq_true, Binary64.le_iff_line hnx hd, not_le] at hnot
    exact Or.inl ((Binary64.lt_iff_line hd hnx).2 hnot)
  refine ⟨pairwise_insertIdx_takeWhile hlater.pairwise hclose hfar, fun x hx => ?_, fun x hx => ?_⟩
  · rcases (List.mem_insertIdx (length_takeWhile_le _ xs)).1 hx with rfl | hx
    · exact List.mem_append_right _ (List.mem_singleton_self _)
    · exact hlater.admitted x hx
  · rcases (List.mem_insertIdx (length_takeWhile_le _ xs)).1 hx with rfl | hx
    · exact hd
    · exact h.numbers x hx

/-- **Binary search is right among members in order.** -/
theorem bisectPosition_eq {members : List Entry} (h : InOrder log (distances members))
    (hd : d.isNaN = false) :
    bisectPosition members d = Balanced.sortedPosition members d := by
  have hpairwise := List.pairwise_map.1 (h.pairwise_le hd)
  refine bisect_eq (Nat.zero_le _) (length_takeWhile_le _ members) fun i hi => ?_
  rw [List.getElem?_eq_getElem hi, Option.any_some]
  exact getElem_iff_lt_takeWhile hpairwise hi

end

/-! ## A table -/

namespace SubTable

open CubeRouting.Balanced

variable {t : SubTable} {i : SlotIndex} {log : List UInt64}

/-- **Where an arrival is put**: at the sorted position among the members that
    stay. -/
theorem WellFormed.receive_sorted (hw : t.WellFormed) (p : Partition) (a : Arrival)
    (hnew : t.contains a.candidate.node.hash = false) :
    t.receive p i a = (t, .declined) ∨
      ∃ (base : SubTable) (admission : Admission), admission.isAdmitted = true ∧
        base.accepts (t.entryOf a.candidate i) = true ∧ (base.slot i).Sublist (t.slot i) ∧
        t.receive p i a = (base.insert (sortedPosition (base.slot i) a.candidate.distance)
          (t.entryOf a.candidate i), admission) := by
  let o : Offer := t.offerOf a.candidate i
  have hreceive : t.receive p i a = t.carryOut ⟨o.unlessStored (o.balancedMoveIn p a.order),
    o.entry⟩ := rfl
  have hmove : o.unlessStored (o.balancedMoveIn p a.order) = o.balancedMoveIn p a.order :=
    Offer.unlessStored_of_new hnew _
  rw [hreceive, hmove, Offer.balancedMoveIn]
  cases p.bucket o.candidate.self o.candidate.node.id with
  | error fault => exact Or.inl rfl
  | ok own =>
    dsimp only
    split
    · rw [carryOut]
      dsimp only
      split
      · rename_i haccepts
        exact Or.inr ⟨t, _, rfl, haccepts, List.Sublist.refl _, rfl⟩
      · exact Or.inl rfl
    cases hv : a.order.victim? p o.candidate.self o.members own with
    | none => exact Or.inl rfl
    | some v =>
      dsimp only [Offer.balancedSwap]
      split
      · exact Or.inl rfl
      · obtain ⟨m, -, hm, -⟩ := a.order.victim?_spec hv
        have hmem : m ∈ t.slot i := List.mem_of_getElem? hm
        have hrest : (t.remove m.hash).1.slot i = o.members.eraseIdx v.position :=
          hw.slot_remove_eq_eraseIdx hm
        rw [carryOut_replace hm hnew, ← hrest]
        refine Or.inr ⟨(t.remove m.hash).1, _, rfl, hw.accepts_remove hmem hnew, ?_, rfl⟩
        rw [hw.slot_remove]
        exact List.filter_sublist

/-- **An arrival keeps a slot in order**, whatever the order of the buckets. -/
theorem WellFormed.inOrder_receive (hw : t.WellFormed) (p : Partition) (a : Arrival)
    (hnew : t.contains a.candidate.node.hash = false)
    (hnan : a.candidate.distance.isNaN = false) (h : InOrder log (distances (t.slot i))) :
    InOrder (log ++ if (t.receive p i a).2.isAdmitted then [a.candidate.node.hash] else [])
      (distances ((t.receive p i a).1.slot i)) := by
  rcases hw.receive_sorted p a hnew with
    hsame | ⟨base, admission, hadmitted, haccepts, hsub, hreceive⟩
  · rw [hsame]
    exact h.append_nil
  · have hbase := h.sublist (hsub.map fun e => (e.hash, e.distance))
    have hother : a.candidate.node.hash ∉ (distances (base.slot i)).map Prod.fst := by
      intro hmem
      obtain ⟨x, hx, hh⟩ := List.mem_map.1 hmem
      obtain ⟨e, he, rfl⟩ := List.mem_map.1 hx
      have hc := hw.contains_iff.2 ⟨e, mem_entries.2 ⟨i, hsub.subset he⟩, hh⟩
      rw [hnew] at hc
      cases hc
    have hinsert := hbase.insert hother hnan
    have hposition : sortedPosition (base.slot i) a.candidate.distance ≤ (base.slot i).length :=
      length_takeWhile_le ..
    have hslot := slot_insert haccepts (sortedPosition (base.slot i) a.candidate.distance) i
    have hindex : (t.entryOf a.candidate i).slot.index = i := rfl
    rw [Nat.min_eq_left hposition, if_pos hindex] at hslot
    rw [hreceive, if_pos hadmitted, hslot, distances, List.map_insertIdx]
    rw [List.takeWhile_map, List.length_map] at hinsert
    exact hinsert

end SubTable

end CubeRouting
