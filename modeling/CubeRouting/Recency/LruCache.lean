/-
  A memory of bounded size that forgets what was used least recently.
-/

namespace CubeRouting

/-- A memory of pairs, the most recently used first. -/
structure LruCache (α β : Type) where
  /-- How many pairs are kept. -/
  capacity : Nat
  items : List (α × β)

namespace LruCache

variable {α β : Type} [BEq α]

/-- An empty memory; it keeps at least one pair. -/
def ofCapacity (n : Nat) : LruCache α β := ⟨max n 1, []⟩

/-- The number of pairs. -/
def size (c : LruCache α β) : Nat := c.items.length

/-- The value of a key. -/
def get? (c : LruCache α β) (key : α) : Option β := c.items.lookup key

/-- The memory without a key. -/
def erase (c : LruCache α β) (key : α) : LruCache α β :=
  { c with items := c.items.filter (·.1 != key) }

/-- The memory with a pair in front; if there is no room the last pair goes. -/
def put (c : LruCache α β) (key : α) (value : β) : LruCache α β :=
  { c with items := ((key, value) :: (c.erase key).items).take c.capacity }

theorem size_put_le (c : LruCache α β) (key : α) (value : β) :
    (c.put key value).size ≤ c.capacity := by
  rw [size, put, List.length_take]
  exact Nat.min_le_left _ _

/-- The memory with a key used: its pair moves to the front. -/
def touch (c : LruCache α β) (key : α) : LruCache α β :=
  match c.get? key with
  | some value => c.put key value
  | none => c

end LruCache

end CubeRouting
