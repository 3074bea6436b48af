/-
  Keeping the nearest.

  Of all that was seen a node keeps the `k` nearest (`Nearest`).  `Takes` is
  what it does with one more peer: keep it while there is room, and later in
  place of the most distant one if it is closer.

  * `Nearest.takes`: this keeps the nearest, whatever was let go before;
  * `Nearest.sort_eq`, `Nearest.mem_iff`, `Nearest.unique`: what is kept.
-/
import Mathlib

namespace CubeRouting

variable {α : Type} {k : Nat} {d : α → Int} {seen kept kept' : Finset α} {x : α}

/-- What is kept are `k` nearest of what was seen, or all if there are fewer. -/
structure Nearest (k : Nat) (d : α → Int) (seen kept : Finset α) : Prop where
  subset : kept ⊆ seen
  card : kept.card = min k seen.card
  le : ∀ x ∈ kept, ∀ y ∈ seen, y ∉ kept → d x ≤ d y

namespace Nearest

theorem refl (h : kept.card ≤ k) : Nearest k d kept kept where
  subset := Finset.Subset.refl kept
  card := by omega
  le _ _ y hy hno := absurd hy hno

/-- While there is room nothing was let go. -/
theorem eq_of_card_lt (h : Nearest k d seen kept) (hlt : kept.card < k) : kept = seen :=
  Finset.eq_of_subset_of_card_le h.subset (by have := h.card; omega)

end Nearest

variable [DecidableEq α]

/-- What is kept before and after `x` was seen. -/
inductive Takes (k : Nat) (d : α → Int) (x : α) : Finset α → Finset α → Prop where
  | stored {kept : Finset α} : x ∈ kept → Takes k d x kept kept
  | added {kept : Finset α} : x ∉ kept → kept.card < k → Takes k d x kept (insert x kept)
  | replaced {kept : Finset α} {w : α} : x ∉ kept → k ≤ kept.card → w ∈ kept → d x < d w →
      (∀ y ∈ kept, d y ≤ d w) → Takes k d x kept (insert x (kept.erase w))
  | declined {kept : Finset α} : x ∉ kept → k ≤ kept.card → (∀ y ∈ kept, d y ≤ d x) →
      Takes k d x kept kept

namespace Nearest

/-- **One more peer**: what is kept are the nearest again. -/
theorem takes (h : Nearest k d seen kept) (ht : Takes k d x kept kept') :
    Nearest k d (insert x seen) kept' := by
  have hcard := h.card
  cases ht with
  | stored hx => rwa [Finset.insert_eq_of_mem (h.subset hx)]
  | added hx hlt =>
    obtain rfl := h.eq_of_card_lt hlt
    refine refl ?_
    rw [Finset.card_insert_of_notMem hx]
    omega
  | @replaced w hx hfull hw hlt hmax =>
    -- a peer that was let go is not closer than the most distant one
    have hnew : x ∉ seen := by
      intro hs
      have := h.le w hw x hs hx
      omega
    refine ⟨?_, ?_, ?_⟩
    · exact Finset.insert_subset_insert x ((Finset.erase_subset w kept).trans h.subset)
    · rw [Finset.card_insert_of_notMem fun hmem => hx (Finset.mem_of_mem_erase hmem),
        Finset.card_erase_of_mem hw, Finset.card_insert_of_notMem hnew]
      have hpos := Finset.card_pos.2 ⟨w, hw⟩
      omega
    · intro u hu y hy hno
      simp only [Finset.mem_insert, Finset.mem_erase, not_or, not_and, ne_eq] at hu hy hno
      have hyw : d w ≤ d y := by
        by_cases heq : y = w
        · rw [heq]
        · exact h.le w hw y (hy.resolve_left hno.1) (hno.2 heq)
      rcases hu with rfl | ⟨-, hu⟩
      · omega
      · have := hmax u hu
        omega
  | declined hx hfull hmax =>
    refine ⟨h.subset.trans (Finset.subset_insert x seen), ?_, ?_⟩
    · have := Finset.card_le_card (Finset.subset_insert x seen)
      omega
    · intro u hu y hy hno
      rcases Finset.mem_insert.1 hy with rfl | hy
      · exact hmax u hu
      · exact h.le u hu y hy hno

/-- **The distances of what is kept** are the `k` smallest. -/
theorem sort_eq (h : Nearest k d seen kept) :
    (kept.val.map d).sort = (seen.val.map d).sort.take k := by
  have hval : seen.val.map d = kept.val.map d + (seen \ kept).val.map d := by
    rw [← Multiset.map_add, Finset.sdiff_val, Multiset.add_comm,
      Multiset.sub_add_cancel (Finset.val_le_iff.2 h.subset)]
  have happ : (seen.val.map d).sort = (kept.val.map d).sort ++ ((seen \ kept).val.map d).sort := by
    refine List.Perm.eq_of_pairwise' (Multiset.pairwise_sort _ _) ?_ ?_
    · refine List.pairwise_append.2 ⟨Multiset.pairwise_sort _ _, Multiset.pairwise_sort _ _, ?_⟩
      intro a ha b hb
      rw [Multiset.mem_sort, Multiset.mem_map] at ha hb
      obtain ⟨x, hx, rfl⟩ := ha
      obtain ⟨y, hy, rfl⟩ := hb
      obtain ⟨hs, hno⟩ := Finset.mem_sdiff.1 hy
      exact h.le x hx y hs hno
    · rw [← Multiset.coe_eq_coe, ← Multiset.coe_add]
      simp only [Multiset.sort_eq, hval]
  have hlen : (kept.val.map d).sort.length = kept.card := by
    rw [Multiset.length_sort, Multiset.card_map]
    rfl
  have hcard := h.card
  by_cases hlt : kept.card < k
  · rw [← h.eq_of_card_lt hlt, List.take_of_length_le (by omega)]
  · rw [happ, List.take_left' (by omega)]

/-- **What is kept**, if no two distances are equal: all that have fewer than
    `k` closer ones. -/
theorem mem_iff (h : Nearest k d seen kept) (hd : Set.InjOn d seen) :
    x ∈ kept ↔ x ∈ seen ∧ (seen.filter fun y => d y < d x).card < k := by
  have hcard := h.card
  constructor
  · intro hx
    have hsub : (seen.filter fun y => d y < d x) ⊆ kept.erase x := by
      intro y hy
      rw [Finset.mem_filter] at hy
      refine Finset.mem_erase.2 ⟨by rintro rfl; omega, ?_⟩
      by_contra hno
      have := h.le x hx y hy.1 hno
      omega
    have hle := Finset.card_le_card hsub
    have hpos := Finset.card_pos.2 ⟨x, hx⟩
    rw [Finset.card_erase_of_mem hx] at hle
    exact ⟨h.subset hx, by omega⟩
  · rintro ⟨hx, hlt⟩
    by_contra hno
    have hsub : kept ⊆ seen.filter fun y => d y < d x := by
      intro y hy
      refine Finset.mem_filter.2 ⟨h.subset hy, ?_⟩
      have hle := h.le y hy x hx hno
      have hne : d y ≠ d x := fun heq => hno (hd (h.subset hy) hx heq ▸ hy)
      omega
    have hle := Finset.card_le_card hsub
    have hmore := Finset.card_lt_card (Finset.ssubset_iff_subset_ne.2
      ⟨h.subset, fun heq => hno (heq ▸ hx)⟩)
    omega

theorem unique (h : Nearest k d seen kept) (h' : Nearest k d seen kept')
    (hd : Set.InjOn d seen) : kept = kept' := by
  ext x
  rw [h.mem_iff hd, h'.mem_iff hd]

end Nearest

end CubeRouting
