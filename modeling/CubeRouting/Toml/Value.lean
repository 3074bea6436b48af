/-
  Values of a TOML document.

  A table remembers how it came to be, because that decides whether a later
  line may add to it.
-/
import CubeRouting.Number.Binary64

namespace CubeRouting.Toml

/-- How a table came to be. -/
inductive Origin where
  /-- Written between braces. -/
  | inline
  /-- Opened by a header of its own. -/
  | header
  /-- On the way to a table opened by a header. -/
  | implied
  /-- On the way to a value with a dotted key. -/
  | dotted
deriving DecidableEq

inductive Value where
  | string (s : String)
  | integer (i : Int)
  | float (x : Binary64)
  | boolean (b : Bool)
  /-- A date, a time or both. -/
  | moment
  /-- An array between brackets. -/
  | array (elements : List Value)
  | table (origin : Origin) (entries : List (String × Value))
  /-- Tables opened one by one by headers with double brackets. -/
  | tables (elements : List (List (String × Value)))

/-- The entries of a table, in the order in which they appeared. -/
abbrev Entries := List (String × Value)

def Entries.valueOf? (entries : Entries) (key : String) : Option Value := List.lookup key entries

/-- The entries with the value of a key replaced, or the key added at the end. -/
def Entries.put (entries : Entries) (key : String) (value : Value) : Entries :=
  if entries.any (·.1 == key) then
    entries.map fun e => if e.1 == key then (key, value) else e
  else entries ++ [(key, value)]

end CubeRouting.Toml
