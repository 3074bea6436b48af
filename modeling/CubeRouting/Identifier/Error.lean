/-
  What can be wrong with an identifier, an index into one or its encoding.
-/
import CubeRouting.Identifier.Shape
import CubeRouting.Number.Decimal

namespace CubeRouting

/-- What an index counts. -/
inductive IndexKind where
  /-- Bits of an identifier. -/
  | bit
  /-- Digits of an identifier. -/
  | digit
  /-- Coordinates of an identifier. -/
  | coordinate
  /-- Digits in which two identifiers differ. -/
  | differingDigit
deriving DecidableEq

/-- The words for what an index counts. -/
def IndexKind.text : IndexKind → String
  | bit => "bit"
  | digit => "digit"
  | coordinate => "coordinate"
  | differingDigit => "differing digit"

/-- A fault of an operation on identifiers. -/
inductive IdentifierError where
  /-- An extent outside `1..maxExtent`. -/
  | invalidShape (dimensions digits : Nat)
  /-- Two identifiers of different shapes. -/
  | shapeMismatch (left right : Shape)
  /-- Two identifiers of different numbers of dimensions. -/
  | dimensionMismatch (left right : Nat)
  /-- More dimensions than bits in the result. -/
  | overflow (dimensions width : Nat)
  /-- An index at or above its limit. -/
  | indexOutOfRange (kind : IndexKind) (index limit : Nat)
  /-- A value of more bits than the cell it is written to. -/
  | valueTooWide (value bits : Nat)
  /-- An encoding of the wrong number of bytes. -/
  | byteLength (expected actual : Nat)
  /-- A bit string of the wrong length. -/
  | bitLength (expected actual : Nat)
  /-- An encoding with a bit set outside the digits. -/
  | nonCanonicalPadding
  /-- A sphere whose radius is not a positive finite number. -/
  | invalidRadius (radius : Binary64)
deriving DecidableEq

/-- The text of a fault. -/
def IdentifierError.message : IdentifierError → String
  | invalidShape dimensions digits =>
    "invalid identifier shape: dimensions=" ++ toString dimensions ++
      ", digits_count=" ++ toString digits
  | shapeMismatch left right =>
    "identifier shapes differ: " ++ left.text ++ " vs " ++ right.text
  | dimensionMismatch left right =>
    "identifier dimensions differ: " ++ toString left ++ " vs " ++ toString right
  | overflow dimensions width =>
    toString dimensions ++ " dimensions do not fit a " ++ toString width ++ "-bit integer"
  | indexOutOfRange kind index limit =>
    kind.text ++ " index " ++ toString index ++ " out of range (limit " ++ toString limit ++ ")"
  | valueTooWide value bits =>
    "value " ++ toString value ++ " does not fit in " ++ toString bits ++ " bits"
  | byteLength expected actual =>
    "expected " ++ toString expected ++ " bytes, got " ++ toString actual
  | bitLength expected actual =>
    "expected " ++ toString expected ++ " bits, got " ++ toString actual
  | nonCanonicalPadding => "non-zero padding bits in encoded identifier"
  | invalidRadius radius =>
    "sphere radius must be positive and finite, got " ++ radius.text

/-- The shape with these extents. -/
def Shape.ofExtents (dimensions digits : Nat) : Except IdentifierError Shape :=
  match Shape.ofExtents? dimensions digits with
  | some s => .ok s
  | none => .error (.invalidShape dimensions digits)

/-- A shape is its extents, and extents out of range make none. -/
theorem Shape.ofExtents_cases (dimensions digits : Nat) :
    (∃ s : Shape, (s.dimensions = dimensions ∧ s.digits = digits) ∧
      Shape.ofExtents dimensions digits = .ok s) ∨
    ¬((1 ≤ dimensions ∧ dimensions ≤ maxExtent) ∧ 1 ≤ digits ∧ digits ≤ maxExtent) ∧
      Shape.ofExtents dimensions digits = .error (.invalidShape dimensions digits) := by
  unfold ofExtents ofExtents?
  split
  · rename_i h
    split at h
    · cases h
      exact Or.inl ⟨_, ⟨rfl, rfl⟩, rfl⟩
    · cases h
  · rename_i h
    split at h
    · cases h
    · rename_i hno
      exact Or.inr ⟨hno, rfl⟩

theorem Shape.ofExtents_eq_ok_iff {dimensions digits : Nat} {s : Shape} :
    Shape.ofExtents dimensions digits = .ok s ↔ s.dimensions = dimensions ∧ s.digits = digits := by
  rcases ofExtents_cases dimensions digits with ⟨s', ⟨rfl, rfl⟩, h⟩ | ⟨hno, h⟩ <;> rw [h]
  · rw [Except.ok.injEq]
    constructor
    · rintro rfl
      exact ⟨rfl, rfl⟩
    · rintro ⟨hd, hn⟩
      cases s
      cases s'
      simp_all
  · refine iff_of_false (fun h => by cases h) ?_
    rintro ⟨rfl, rfl⟩
    exact hno ⟨⟨s.dimensions_pos, s.dimensions_le⟩, s.digits_pos, s.digits_le⟩

end CubeRouting
