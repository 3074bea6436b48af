/-
  Peers: an identifier, the network address it was seen at, and the hash of
  the identifier, which the routing tables use as the key.
-/
import CubeRouting.Identifier.Bytes
import CubeRouting.Identifier.Digest

namespace CubeRouting

/-- A network address, in its canonical text. -/
abbrev Address := String

/-- A node of the overlay. -/
structure NodeRecord where
  id : Identifier
  address : Address
  /-- The key of the identifier; different identifiers may share it. -/
  hash : UInt64
deriving DecidableEq

namespace NodeRecord

/-- The record of an identifier seen at an address. -/
def of (id : Identifier) (address : Address) : NodeRecord := ⟨id, address, id.hash⟩

/-- The record of an identifier seen at an address, with another key. -/
def keyed (key : Identifier → UInt64) (id : Identifier) (address : Address) : NodeRecord :=
  ⟨id, address, key id⟩

/-- A node is written as its identifier, an `@` and its address. -/
def text (node : NodeRecord) : String := node.id.text ++ "@" ++ node.address

end NodeRecord

end CubeRouting
