/-
  What a memory of bounded size still knows.

  * `HasBehind`: a key has its value, and only some other keys were used after
    it.  While these are fewer than the memory has room for, the key stays
    (`HasBehind.put_other`, `HasBehind.touch_other`);
  * `Binds`: no pair of a key has another value, whether the key stays or not.
-/
import CubeRouting.Recency.LruCache
import Mathlib.Data.Finset.Card

namespace CubeRouting.LruCache

variable {α β : Type} {key k : α} {value v : β} {others : Finset α}

/-- No pair of a key has another value. -/
def Binds (c : LruCache α β) (key : α) (value : β) : Prop := ∀ v, (key, v) ∈ c.items → v = value

/-- The key has a value, and only `others` were used after it. -/
def HasBehind (c : LruCache α β) (key : α) (value : β) (others : Finset α) : Prop :=
  ∃ front back, c.items = front ++ (key, value) :: back ∧ (front.map Prod.fst).Nodup ∧
    ∀ k ∈ front.map Prod.fst, k ∈ others

theorem HasBehind.mono {c : LruCache α β} {others' : Finset α} (h : c.HasBehind key value others)
    (hsub : others ⊆ others') : c.HasBehind key value others' := by
  obtain ⟨front, back, hitems, hnodup, hfront⟩ := h
  exact ⟨front, back, hitems, hnodup, fun k hk => hsub (hfront k hk)⟩

variable [BEq α] {c : LruCache α β}

theorem capacity_touch (c : LruCache α β) (k : α) : (c.touch k).capacity = c.capacity := by
  unfold touch
  split <;> rfl

/-- A key that is used is in front. -/
theorem HasBehind.put (hroom : 0 < c.capacity) (key : α) (value : β) (others : Finset α) :
    (c.put key value).HasBehind key value others := by
  refine ⟨[], (c.erase key).items.take (c.capacity - 1), ?_, List.nodup_nil, nofun⟩
  rw [LruCache.put, List.take_cons hroom]
  rfl

variable [LawfulBEq α]

theorem mem_items_erase {p : α × β} : p ∈ (c.erase k).items ↔ p ∈ c.items ∧ p.1 ≠ k := by
  simp [erase]

theorem mem_items_put {p : α × β} (h : p ∈ (c.put k v).items) :
    p = (k, v) ∨ p ∈ c.items ∧ p.1 ≠ k := by
  rcases List.mem_cons.1 (List.mem_of_mem_take h) with h | h
  · exact Or.inl h
  · exact Or.inr (mem_items_erase.1 h)

/-! ## Values -/

theorem binds_put (c : LruCache α β) (key : α) (value : β) : (c.put key value).Binds key value := by
  intro v h
  rcases mem_items_put h with h | ⟨-, hne⟩
  · exact (Prod.mk.inj h).2
  · exact absurd rfl hne

namespace Binds

theorem eq_of_get? (h : c.Binds key value) (hv : c.get? key = some v) : v = value := by
  obtain ⟨front, back, hitems, -⟩ := List.lookup_eq_some_iff.1 hv
  refine h v ?_
  rw [hitems]
  exact List.mem_append_right front List.mem_cons_self

theorem put_other (h : c.Binds key value) (hne : k ≠ key) (v : β) :
    (c.put k v).Binds key value := by
  intro v' hv'
  rcases mem_items_put hv' with heq | ⟨hmem, -⟩
  · exact absurd (Prod.mk.inj heq).1.symm hne
  · exact h v' hmem

theorem erase (h : c.Binds key value) (k : α) : (c.erase k).Binds key value :=
  fun v hv => h v (mem_items_erase.1 hv).1

theorem touch (h : c.Binds key value) (k : α) : (c.touch k).Binds key value := by
  unfold LruCache.touch
  split
  · rename_i v hv
    by_cases hk : k = key
    · subst hk
      rw [h.eq_of_get? hv]
      exact binds_put c k value
    · exact h.put_other hk v
  · exact h

end Binds

/-! ## Places -/

namespace HasBehind

theorem get? (h : c.HasBehind key value others) (hkey : key ∉ others) :
    c.get? key = some value := by
  obtain ⟨front, back, hitems, -, hfront⟩ := h
  refine List.lookup_eq_some_iff.2 ⟨front, back, hitems, fun p hp => bne_iff_ne.2 ?_⟩
  rintro rfl
  exact hkey (hfront _ (List.mem_map_of_mem hp))

theorem touch (h : c.HasBehind key value others) (hkey : key ∉ others) (hroom : 0 < c.capacity) :
    (c.touch key).HasBehind key value others := by
  rw [LruCache.touch, h.get? hkey]
  exact put hroom key value others

variable [DecidableEq α]

theorem erase_other (h : c.HasBehind key value others) (hne : k ≠ key) :
    (c.erase k).HasBehind key value (others.erase k) := by
  obtain ⟨front, back, hitems, hnodup, hfront⟩ := h
  refine ⟨front.filter (·.1 != k), back.filter (·.1 != k), ?_, ?_, fun k' hk' => ?_⟩
  · rw [LruCache.erase, hitems, List.filter_append, List.filter_cons_of_pos]
    exact bne_iff_ne.2 hne.symm
  · exact hnodup.sublist (List.filter_sublist.map Prod.fst)
  · obtain ⟨p, hp, rfl⟩ := List.mem_map.1 hk'
    obtain ⟨hmem, hp⟩ := List.mem_filter.1 hp
    exact Finset.mem_erase.2 ⟨bne_iff_ne.1 hp, hfront _ (List.mem_map_of_mem hmem)⟩

section
variable (h : c.HasBehind key value others) (hne : k ≠ key) (hk : k ∈ others)
  (hroom : others.card < c.capacity)
include h hne hk hroom

/-- **A key stays if fewer others were used after it than there is room for.** -/
theorem put_other (v : β) : (c.put k v).HasBehind key value others := by
  obtain ⟨front, back, hitems, hnodup, hfront⟩ := h.erase_other hne
  have hnodup' : (((k, v) :: front).map Prod.fst).Nodup :=
    List.nodup_cons.2 ⟨fun hmem => (Finset.mem_erase.1 (hfront k hmem)).1 rfl, hnodup⟩
  have hfront' : ∀ k' ∈ ((k, v) :: front).map Prod.fst, k' ∈ others := by
    intro k' hk'
    rcases List.mem_cons.1 hk' with rfl | hk'
    · exact hk
    · exact Finset.mem_of_mem_erase (hfront k' hk')
  have hlength : ((k, v) :: front).length < c.capacity := by
    rw [← List.length_map (f := Prod.fst), ← List.toFinset_card_of_nodup hnodup']
    refine Nat.lt_of_le_of_lt (Finset.card_le_card fun k' hk' => ?_) hroom
    exact hfront' k' (List.mem_toFinset.1 hk')
  refine ⟨(k, v) :: front, back.take (c.capacity - ((k, v) :: front).length - 1), ?_, hnodup',
    hfront'⟩
  rw [LruCache.put, hitems, ← List.cons_append, List.take_append,
    List.take_of_length_le hlength.le, List.take_cons (by omega)]

theorem touch_other : (c.touch k).HasBehind key value others := by
  unfold LruCache.touch
  split
  · exact h.put_other hne hk hroom _
  · exact h

end

end HasBehind

/-- **A key that was just used stays** when another one comes, if there is room
    for two. -/
theorem get?_put_touch [DecidableEq α] (hroom : 1 < c.capacity) (hne : k ≠ key) (v : β) :
    ((c.touch key).put k v).get? key = c.get? key := by
  cases hget : c.get? key with
  | none =>
    rw [touch, hget]
    refine List.lookup_eq_none_iff.2 fun p hp => ?_
    rcases mem_items_put hp with rfl | ⟨hmem, -⟩
    · exact bne_iff_ne.2 hne.symm
    · exact List.lookup_eq_none_iff.1 hget p hmem
  | some value =>
    rw [touch, hget]
    have hfront : (c.put key value).HasBehind key value {k} :=
      HasBehind.put (Nat.zero_lt_of_lt hroom) key value {k}
    exact (hfront.put_other hne (Finset.mem_singleton_self k) hroom v).get?
      (Finset.notMem_singleton.2 hne.symm)

end CubeRouting.LruCache
