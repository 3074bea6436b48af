/-
  How members are spread over the buckets of a partition.

  `gap` is the difference between the fullest and the emptiest bucket, and
  `load` measures a slot: the sum of the squared counts, then the sorted
  distances.  A member `Yields` to a peer if the balanced policy may put the
  peer in its place.

  * `Yields.gap_le`: the gap does not widen;
  * `Yields.load_lt`: the load decreases.
-/
import CubeRouting.Policy.Balanced
import CubeRouting.Proofs.BitString
import CubeRouting.Proofs.Identifier.Bits
import CubeRouting.Proofs.Number.Order
import Mathlib

namespace CubeRouting

/-! ## Sorted lists -/

section
variable {α : Type} [LinearOrder α] {x y z : α} {l : List α}

theorem cons_lt_orderedInsert (hl : l.Pairwise (· ≤ ·)) (hz : ∀ a ∈ l, z ≤ a) (h : z < x) :
    z :: l < l.orderedInsert (· ≤ ·) x := by
  induction l generalizing z with
  | nil => exact List.cons_lt_cons_iff.2 (Or.inl h)
  | cons a l ih =>
    obtain ⟨ha, htail⟩ := List.pairwise_cons.1 hl
    rw [List.orderedInsert_cons]
    split
    · exact List.cons_lt_cons_iff.2 (Or.inl h)
    · rw [List.cons_lt_cons_iff]
      rcases (hz a List.mem_cons_self).lt_or_eq with hlt | rfl
      · exact Or.inl hlt
      · exact Or.inr ⟨rfl, ih htail ha h⟩

theorem orderedInsert_lt (hl : l.Pairwise (· ≤ ·)) (h : y < x) :
    l.orderedInsert (· ≤ ·) y < l.orderedInsert (· ≤ ·) x := by
  induction l with
  | nil => exact List.cons_lt_cons_iff.2 (Or.inl h)
  | cons a l ih =>
    obtain ⟨ha, htail⟩ := List.pairwise_cons.1 hl
    rw [List.orderedInsert_cons, List.orderedInsert_cons]
    split
    · rename_i hya
      split
      · exact List.cons_lt_cons_iff.2 (Or.inl h)
      · rw [List.cons_lt_cons_iff]
        rcases hya.lt_or_eq with hlt | rfl
        · exact Or.inl hlt
        · exact Or.inr ⟨rfl, cons_lt_orderedInsert htail ha h⟩
    · rename_i hya
      rw [if_neg fun hxa => hya (h.le.trans hxa), List.cons_lt_cons_iff]
      exact Or.inr ⟨rfl, ih htail⟩

theorem sort_cons_eq (x : α) (s : Multiset α) :
    (x ::ₘ s).sort = s.sort.orderedInsert (· ≤ ·) x := by
  refine List.Perm.eq_of_pairwise' (Multiset.pairwise_sort _ _)
    ((Multiset.pairwise_sort s _).orderedInsert x _) ?_
  refine List.Perm.trans ?_ (List.perm_orderedInsert (· ≤ ·) x s.sort).symm
  rw [← Multiset.coe_eq_coe, ← Multiset.cons_coe, Multiset.sort_eq, Multiset.sort_eq]

/-- A smaller element makes the sorted list smaller. -/
theorem sort_cons_lt (s : Multiset α) (h : y < x) : (y ::ₘ s).sort < (x ::ₘ s).sort := by
  rw [sort_cons_eq, sort_cons_eq]
  exact orderedInsert_lt (Multiset.pairwise_sort s _) h

end

/-! ## Counts -/

/-- The place of a distance among all distances; a NaN comes last. -/
def Binary64.place (x : Binary64) : WithTop Int := if x.isNaN then ⊤ else x.line

instance : Finite Binary64 :=
  Finite.of_injective (fun x : Binary64 => x.bits.toFin) fun x y h => by
    cases x
    cases y
    exact congrArg Binary64.mk (UInt64.toFin_inj.1 h)

/-- A number that is not reached by another one is further. -/
theorem Binary64.place_lt_of_not_le {x y : Binary64} (hx : x.isNaN = false)
    (h : y.le x = false) : x.place < y.place := by
  unfold place
  rw [hx, if_neg Bool.false_ne_true]
  cases hy : y.isNaN with
  | true => exact WithTop.coe_lt_top _
  | false =>
    rw [if_neg Bool.false_ne_true, WithTop.coe_lt_coe]
    rwa [← Bool.not_eq_true, le_iff_line hy hx, Int.not_le] at h

namespace Partition

variable (p : Partition) (self : Identifier) {members old new rest : List Entry} {e w : Entry}
  {b b' own : Nat}

/-- The number of buckets. -/
def size : Nat :=
  match p with
  | orthants => 2 ^ self.dimensions
  | semirings => 2

/-- The bucket of a member, if it has one. -/
def bucket? (e : Entry) : Option Nat := (p.bucket self e.node.id).toOption

/-- The number of members of a bucket. -/
def count (members : List Entry) (b : Nat) : Nat := members.countP (p.bucket? self · == some b)

/-- The number of members of the fullest bucket. -/
def largest (members : List Entry) : Nat := (Finset.range (p.size self)).sup (p.count self members)

theorem size_pos : 0 < p.size self := by
  cases p with
  | orthants => exact Nat.two_pow_pos _
  | semirings => exact Nat.two_pos

/-- The number of members of the emptiest bucket. -/
def smallest (members : List Entry) : Nat :=
  (Finset.range (p.size self)).inf' (Finset.nonempty_range_iff.2 (p.size_pos self).ne')
    (p.count self members)

/-- By how much the counts of all buckets, empty ones included, differ. -/
def gap (members : List Entry) : Nat := p.largest self members - p.smallest self members

/-- The sum of the squared counts. -/
def squares (members : List Entry) : Nat :=
  ∑ b ∈ Finset.range (p.size self), p.count self members b ^ 2

/-- The sum of the squared counts, then the sorted distances. -/
def load (members : List Entry) : ℕ ×ₗ List (WithTop Int) :=
  toLex (p.squares self members,
    ((members.map (·.distance.place) : List (WithTop Int)) : Multiset (WithTop Int)).sort)

variable {p self}

theorem bucket?_eq_some_iff : p.bucket? self e = some b ↔ p.bucket self e.node.id = .ok b := by
  unfold bucket?
  cases p.bucket self e.node.id <;> simp [Except.toOption]

/-- **Every bucket has a number below the number of buckets.** -/
theorem bucket_lt {id : Identifier} (h : p.bucket self id = .ok b) : b < p.size self := by
  cases p with
  | orthants =>
    simp only [bucket, orthantNumber] at h
    cases hshape : Identifier.checkShape self id with
    | error fault =>
      rw [hshape] at h
      cases h
    | ok =>
      rw [hshape, ok_bind] at h
      split at h
      · cases h
      · cases h
        refine (BitString.toNat_lt _).trans_eq ?_
        rw [List.length_reverse, List.length_map, List.length_range]
        rfl
  | semirings =>
    simp only [bucket, semiringNumber] at h
    cases hshape : Identifier.checkShape self id with
    | error fault =>
      rw [hshape] at h
      cases h
    | ok =>
      rw [hshape] at h
      cases h
      exact Bool.toNat_lt _

theorem count_eq_of_perm (h : old.Perm new) : p.count self old = p.count self new :=
  funext fun _ => h.countP_eq _

theorem count_cons (e : Entry) (members : List Entry) (b : Nat) :
    p.count self (e :: members) b =
      p.count self members b + if p.bucket? self e = some b then 1 else 0 := by
  simp [count, List.countP_cons]

theorem count_le_largest (members : List Entry) (hb : b < p.size self) :
    p.count self members b ≤ p.largest self members :=
  Finset.le_sup (f := p.count self members) (Finset.mem_range.2 hb)

theorem smallest_le_count (members : List Entry) (hb : b < p.size self) :
    p.smallest self members ≤ p.count self members b :=
  Finset.inf'_le _ (Finset.mem_range.2 hb)

theorem gap_le_iff {k : Nat} : p.gap self members ≤ k ↔
    ∀ b < p.size self, ∀ b' < p.size self, p.count self members b ≤ p.count self members b' + k := by
  constructor
  · intro h b hb b' hb'
    have hlarge := count_le_largest members hb
    have hsmall := smallest_le_count members hb'
    rw [gap] at h
    omega
  · intro h
    rw [gap, Nat.sub_le_iff_le_add', largest, Finset.sup_le_iff]
    intro b hb
    obtain ⟨b', hb', heq⟩ := Finset.exists_mem_eq_inf' (Finset.nonempty_range_iff.2
      (p.size_pos self).ne') (p.count self members)
    rw [smallest, heq]
    exact h b (Finset.mem_range.1 hb) b' (Finset.mem_range.1 hb')

/-- What one more member adds. -/
theorem squares_cons (he : p.bucket? self e = some b) (members : List Entry) :
    p.squares self (e :: members) = p.squares self members + (2 * p.count self members b + 1) := by
  have hb : b ∈ Finset.range (p.size self) :=
    Finset.mem_range.2 (bucket_lt (bucket?_eq_some_iff.1 he))
  have hterm : ∀ k, p.count self (e :: members) k ^ 2 = p.count self members k ^ 2 +
      if b = k then 2 * p.count self members k + 1 else 0 := by
    intro k
    rw [count_cons, he]
    by_cases hk : b = k
    · rw [if_pos (congrArg some hk), if_pos hk]
      ring
    · rw [if_neg (by simpa using hk), if_neg hk, Nat.add_zero, Nat.add_zero]
  simp only [squares, hterm, Finset.sum_add_distrib, Finset.sum_ite_eq, if_pos hb]

theorem squares_le_of_load_le (h : p.load self new ≤ p.load self old) :
    p.squares self new ≤ p.squares self old := by
  rw [load, load, Prod.Lex.toLex_le_toLex] at h
  rcases h with h | h
  · exact h.le
  · exact h.1.le

/-- There are finitely many loads of slots with as many members, since there
    are finitely many distances. -/
theorem finite_loads (p : Partition) (self : Identifier) (most k : Nat) :
    {x | ∃ members, members.length = k ∧ p.squares self members ≤ most ∧
      p.load self members = x}.Finite := by
  have hfinite : (Set.Iic most ×ˢ {l : List Binary64 | l.length = k}).Finite :=
    (Set.finite_Iic most).prod (List.finite_length_eq Binary64 k)
  refine (hfinite.image fun x => (toLex (x.1,
    ((x.2.map (·.place) : List (WithTop Int)) : Multiset (WithTop Int)).sort) :
      ℕ ×ₗ List (WithTop Int))).subset ?_
  rintro _ ⟨members, hlen, hmost, rfl⟩
  refine ⟨(p.squares self members, members.map (·.distance)), ⟨hmost, ?_⟩, ?_⟩
  · exact (List.length_map _).trans hlen
  · simp only [load, List.map_map, Function.comp_def]

/-! ## Making room -/

/-- A member of a fullest bucket that may make room for a peer of bucket `own`
    at a distance. -/
structure Yields (p : Partition) (center : Identifier) (members : List Entry) (w : Entry)
    (own : Nat) (distance : Binary64) : Prop where
  fullest : ∃ b, p.bucket? center w = some b ∧
    p.count center members b = p.largest center members ∧
    (b = own ∨ p.count center members own < p.largest center members)
  /-- It is further, unless its bucket has at least two members more than the
      peer's. -/
  further : distance.place < w.distance.place ∨
    p.count center members own + 1 < p.largest center members

section
variable (hold : old.Perm (w :: rest)) (hnew : new.Perm (e :: rest))
  (he : p.bucket? self e = some own) (h : p.Yields self old w own e.distance)
include hold hnew he h

/-- **The gap does not widen.** -/
theorem Yields.gap_le : p.gap self new ≤ p.gap self old := by
  obtain ⟨b, hw, hmost, hown⟩ := h.fullest
  have hb := bucket_lt (bucket?_eq_some_iff.1 hw)
  have hcount : ∀ k, p.count self new k + (if b = k then 1 else 0) =
      p.count self old k + if own = k then 1 else 0 := by
    intro k
    rw [count_eq_of_perm hold, count_eq_of_perm hnew, count_cons, count_cons, hw, he]
    simp only [Option.some.injEq]
    omega
  rw [gap_le_iff]
  intro k hk k' hk'
  have hgap := gap_le_iff.1 (le_refl (p.gap self old)) b hb
  -- no bucket gets more members than the fullest one had
  have hupper : p.count self new k ≤ p.count self old b := by
    have hle := count_le_largest old hk
    have hk := hcount k
    split at hk <;> split at hk
    · omega
    · omega
    · subst own
      rcases hown with rfl | hlt
      · contradiction
      · omega
    · omega
  -- only the fullest one may lose a member, and then there was a gap
  have hk' := hgap k' hk'
  have hcount' := hcount k'
  split at hcount' <;> split at hcount'
  · omega
  · subst k'
    rcases hown with rfl | hlt
    · contradiction
    · have hbelow := hgap own (bucket_lt (bucket?_eq_some_iff.1 he))
      omega
  · omega
  · omega

/-- **The load decreases.** -/
theorem Yields.load_lt : p.load self new < p.load self old := by
  obtain ⟨b, hw, hmost, hown⟩ := h.fullest
  have hrest : ∀ k, p.count self old k = p.count self rest k + if b = k then 1 else 0 := by
    intro k
    rw [count_eq_of_perm hold, count_cons, hw]
    simp only [Option.some.injEq]
  have hsquares : p.squares self old = p.squares self rest + (2 * p.count self rest b + 1) := by
    rw [← squares_cons hw, squares, squares, count_eq_of_perm hold]
  have hsquares' : p.squares self new =
      p.squares self rest + (2 * p.count self rest own + 1) := by
    rw [← squares_cons he, squares, squares, count_eq_of_perm hnew]
  have hb : p.count self old b = p.count self rest b + 1 := by rw [hrest, if_pos rfl]
  have hother : b ≠ own → p.count self old own = p.count self rest own :=
    fun hne => by rw [hrest, if_neg hne, Nat.add_zero]
  rw [load, load, Prod.Lex.toLex_lt_toLex]
  by_cases hlevel : p.count self old own + 1 < p.largest self old
  · have hown' := hother (by rintro rfl; omega)
    refine Or.inl ?_
    simp only
    omega
  · refine Or.inr ⟨?_, ?_⟩
    · rcases hown with rfl | hlt
      · exact hsquares'.trans hsquares.symm
      · have hown' := hother (by rintro rfl; omega)
        simp only
        omega
    · have hcloser := h.further.resolve_right hlevel
      have hold' : ((old.map (·.distance.place) : List (WithTop Int)) : Multiset (WithTop Int)) =
          w.distance.place ::ₘ (rest.map (·.distance.place) : List (WithTop Int)) :=
        Multiset.coe_eq_coe.2 (hold.map _)
      have hnew' : ((new.map (·.distance.place) : List (WithTop Int)) : Multiset (WithTop Int)) =
          e.distance.place ::ₘ (rest.map (·.distance.place) : List (WithTop Int)) :=
        Multiset.coe_eq_coe.2 (hnew.map _)
      simp only [hold', hnew']
      exact sort_cons_lt _ hcloser

end

end Partition

end CubeRouting
