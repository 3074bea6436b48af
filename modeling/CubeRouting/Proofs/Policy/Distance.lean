/-
  What the distance policy does.

  * `champion_spec`, `champion_first`: no key wins against the champion, which
    wins against those before it;
  * `firstGreatest_spec`, `firstLeast_spec`: it is the largest, or the smallest;
  * `SubTable.offer_distance`: a slot with room takes any candidate, and a full
    one takes it in place of the most distant member if it is closer.
-/
import CubeRouting.Proofs.Number.Order
import CubeRouting.Proofs.Table.Evolution
import Mathlib.Data.List.Induction

namespace CubeRouting

/-! ## Choosing a member -/

section
variable {κ : Type} {wins : κ → κ → Bool} {keys : List κ} {k : κ} {i : Nat}

theorem champion_concat (wins : κ → κ → Bool) (keys : List κ) (key : κ) :
    champion wins (keys ++ [key]) =
      match champion wins keys with
      | none => some (keys.length, key)
      | some (i, holder) =>
        if wins key holder then some (keys.length, key) else some (i, holder) := by
  unfold champion
  rw [List.zipIdx_append, List.foldl_append]
  simp only [List.zipIdx_singleton, List.foldl_cons, List.foldl_nil, Nat.zero_add]
  generalize List.foldl _ none keys.zipIdx = best
  cases best <;> rfl

theorem champion_eq_none_iff : champion wins keys = none ↔ keys = [] := by
  induction keys using List.reverseRecOn with
  | nil => exact iff_of_true rfl rfl
  | append_singleton keys key ih =>
    refine iff_of_false ?_ (by simp)
    rw [champion_concat]
    split
    · exact Option.some_ne_none _
    · split <;> exact Option.some_ne_none _

theorem getElem?_champion (h : champion wins keys = some (i, k)) : keys[i]? = some k := by
  induction keys using List.reverseRecOn generalizing i k with
  | nil => cases h
  | append_singleton keys key ih =>
    rw [champion_concat] at h
    cases hbest : champion wins keys with
    | none =>
      rw [hbest] at h
      cases h
      simp
    | some best =>
      obtain ⟨j, holder⟩ := best
      have hj := ih hbest
      rw [hbest] at h
      dsimp only at h
      split at h <;> cases h
      · simp
      · rw [List.getElem?_append_left (List.getElem?_eq_some_iff.1 hj).1]
        exact hj

/-- **No key wins against the champion.** -/
theorem champion_spec (hasymm : ∀ a b, wins a b = true → wins b a = false)
    (htrans : ∀ a b c, wins a b = false → wins b c = false → wins a c = false)
    (h : champion wins keys = some (i, k)) :
    keys[i]? = some k ∧ ∀ key ∈ keys, wins key k = false := by
  refine ⟨getElem?_champion h, ?_⟩
  have hirrefl : ∀ a, wins a a = false := by
    intro a
    by_contra ha
    rw [Bool.not_eq_false] at ha
    rw [hasymm a a ha] at ha
    cases ha
  induction keys using List.reverseRecOn generalizing i k with
  | nil => cases h
  | append_singleton keys key ih =>
    rw [champion_concat] at h
    cases hbest : champion wins keys with
    | none =>
      rw [hbest] at h
      cases h
      rw [champion_eq_none_iff.1 hbest]
      simp [hirrefl]
    | some best =>
      obtain ⟨j, holder⟩ := best
      have hholder := ih hbest
      rw [hbest] at h
      dsimp only at h
      intro key' hkey'
      split at h
      · rename_i hwins
        cases h
        rcases List.mem_append.1 hkey' with hold | hnew
        · exact htrans key' holder key (hholder key' hold) (hasymm key holder hwins)
        · rw [List.mem_singleton.1 hnew]
          exact hirrefl key
      · rename_i hloses
        cases h
        rcases List.mem_append.1 hkey' with hold | hnew
        · exact hholder key' hold
        · rw [List.mem_singleton.1 hnew]
          simpa using hloses

/-- **The champion wins against every key before it.** -/
theorem champion_first (hasymm : ∀ a b, wins a b = true → wins b a = false)
    (htrans : ∀ a b c, wins a b = false → wins b c = false → wins a c = false)
    (h : champion wins keys = some (i, k)) :
    ∀ j < i, ∀ key, keys[j]? = some key → wins k key = true := by
  induction keys using List.reverseRecOn generalizing i k with
  | nil => cases h
  | append_singleton keys key ih =>
    rw [champion_concat] at h
    cases hbest : champion wins keys with
    | none =>
      rw [hbest] at h
      cases h
      rw [champion_eq_none_iff.1 hbest]
      exact fun j hj => absurd hj (Nat.not_lt_zero j)
    | some best =>
      obtain ⟨p, holder⟩ := best
      obtain ⟨hholder, hall⟩ := champion_spec hasymm htrans hbest
      have hp := (List.getElem?_eq_some_iff.1 hholder).1
      rw [hbest] at h
      dsimp only at h
      intro j hj key' hkey'
      split at h
      · rename_i hwins
        cases h
        rw [List.getElem?_append_left hj] at hkey'
        by_contra hloses
        rw [Bool.not_eq_true] at hloses
        rw [htrans key key' holder hloses (hall key' (List.mem_of_getElem? hkey'))] at hwins
        cases hwins
      · cases h
        rw [List.getElem?_append_left (hj.trans hp)] at hkey'
        exact ih hbest j hj key' hkey'

end

theorem firstGreatest_spec {keys : List Binary64} {i : Nat} {worst : Binary64}
    (h : firstGreatest keys = some (i, worst)) :
    keys[i]? = some worst ∧ ∀ key ∈ keys, key.line ≤ worst.line := by
  have hasymm : ∀ a b : Binary64, Scalar.before b a = true → Scalar.before a b = false :=
    fun a b => (Binary64.before_asymm : b.before a = true → a.before b = false)
  have htrans : ∀ a b d : Binary64, Scalar.before b a = false → Scalar.before d b = false →
      Scalar.before d a = false := fun a b d hab hbd =>
    (Binary64.before_trans_false : d.before b = false → b.before a = false → d.before a = false)
      hbd hab
  obtain ⟨hi, hall⟩ := champion_spec hasymm htrans h
  exact ⟨hi, fun key hkey => Binary64.line_le_of_before (hall key hkey)⟩

theorem firstLeast_spec {keys : List Binary64} {i : Nat} {least : Binary64}
    (h : firstLeast keys = some (i, least)) :
    keys[i]? = some least ∧ ∀ key ∈ keys, least.line ≤ key.line := by
  have hasymm : ∀ a b : Binary64, Scalar.before a b = true → Scalar.before b a = false :=
    fun a b => (Binary64.before_asymm : a.before b = true → b.before a = false)
  have htrans : ∀ a b d : Binary64, Scalar.before a b = false → Scalar.before b d = false →
      Scalar.before a d = false := fun a b d =>
    (Binary64.before_trans_false : a.before b = false → b.before d = false → a.before d = false)
  obtain ⟨hi, hall⟩ := champion_spec hasymm htrans h
  exact ⟨hi, fun key hkey => Binary64.line_le_of_before (hall key hkey)⟩

/-! ## The policy -/

section
variable {o : Offer} (hnan : o.candidate.distance.isNaN = false)
  (hmembers : ∀ m ∈ o.members, m.distance.isNaN = false)
include hnan hmembers

/-- **The move of the distance policy**: a candidate is added while there is
    room, and later in place of the most distant member if it is closer. -/
theorem Offer.distanceMove_cases :
    (o.isFull = false ∧ o.distanceMove = .insert o.members.length) ∨
    (o.isFull = true ∧ o.distanceMove = .decline ∧
      ∀ m ∈ o.members, m.distance.line ≤ o.candidate.distance.line) ∨
    (o.isFull = true ∧ ∃ i m, o.members[i]? = some m ∧ o.distanceMove = .replace i i ∧
      o.candidate.distance.line < m.distance.line ∧
      ∀ m' ∈ o.members, m'.distance.line ≤ m.distance.line) := by
  unfold distanceMove
  cases hfull : o.isFull with
  | false => exact Or.inl ⟨rfl, by simp⟩
  | true =>
    rw [if_pos rfl]
    refine Or.inr ?_
    cases hworst : firstGreatest (o.members.map (·.distance)) with
    | none =>
      have hnil : o.members = [] := List.map_eq_nil_iff.1 (champion_eq_none_iff.1 hworst)
      exact Or.inl ⟨rfl, rfl, by simp [hnil]⟩
    | some best =>
      obtain ⟨i, worst⟩ := best
      obtain ⟨hi, hall⟩ := firstGreatest_spec hworst
      obtain ⟨m, hm, rfl⟩ : ∃ m, o.members[i]? = some m ∧ m.distance = worst := by
        simpa using hi
      have hmost : ∀ m' ∈ o.members, m'.distance.line ≤ m.distance.line :=
        fun m' hm' => hall _ (List.mem_map_of_mem hm')
      have hlt := Binary64.lt_iff_line hnan (hmembers m (List.mem_of_getElem? hm))
      dsimp only
      split
      · rename_i hcloser
        exact Or.inr ⟨rfl, i, m, hm, rfl, hlt.1 hcloser, hmost⟩
      · rename_i hfar
        rw [hlt, Int.not_lt] at hfar
        exact Or.inl ⟨rfl, rfl, fun m' hm' => Int.le_trans (hmost m' hm') hfar⟩

end

/-- A move is made if the table does not have the candidate. -/
theorem Offer.unlessStored_of_new {o : Offer} (h : o.stored = false) (move : Move) :
    o.unlessStored move = move := if_neg (ne_true_of_eq_false h)

/-- **What the distance policy makes of an offer** to a table that does not
    have the candidate. -/
theorem SubTable.offer_distance {t : SubTable} {candidate : Candidate} {i : SlotIndex}
    (hnew : t.contains candidate.node.hash = false) (hnan : candidate.distance.isNaN = false)
    (hmembers : ∀ m ∈ t.slot i, m.distance.isNaN = false) :
    ((t.slot i).length < t.capacity ∧ (t.offer .distance candidate i).2.2 = .admitted) ∨
    (t.capacity ≤ (t.slot i).length ∧ (t.offer .distance candidate i).2.2 = .declined ∧
      ∀ m ∈ t.slot i, m.distance.line ≤ candidate.distance.line) ∨
    (t.capacity ≤ (t.slot i).length ∧ ∃ m ∈ t.slot i,
      (t.offer .distance candidate i).2.2 = .replaced m.hash ∧
      candidate.distance.line < m.distance.line ∧
      ∀ m' ∈ t.slot i, m'.distance.line ≤ m.distance.line) := by
  let o : Offer := t.offerOf candidate i
  have hoffer : (t.offer .distance candidate i).2.2 =
      (t.carryOut ⟨o.unlessStored o.distanceMove, o.entry⟩).2 := rfl
  have hmove : o.unlessStored o.distanceMove = o.distanceMove := Offer.unlessStored_of_new hnew _
  rw [hoffer, hmove]
  rcases o.distanceMove_cases hnan hmembers with
    ⟨hfull, hm⟩ | ⟨hfull, hm, hall⟩ | ⟨hfull, v, m, hv, hm, hlt, hall⟩
  · have hroom : (t.slot i).length < t.capacity := by simpa [o, offerOf, Offer.isFull] using hfull
    have haccepts : t.accepts o.entry = true := SubTable.accepts_iff.2 ⟨hroom, hnew⟩
    refine Or.inl ⟨hroom, ?_⟩
    simp only [hm, carryOut, haccepts, if_true]
  · refine Or.inr (Or.inl ⟨of_decide_eq_true hfull, ?_, hall⟩)
    simp only [hm, carryOut]
  · refine Or.inr (Or.inr ⟨of_decide_eq_true hfull, m, List.mem_of_getElem? hv, ?_, hlt, hall⟩)
    rw [hm, carryOut_replace hv hnew]

end CubeRouting
