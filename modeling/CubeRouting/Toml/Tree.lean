/-
  How the lines of a TOML document build its tables.

  Every value has one place.  `enter` walks a path of keys through the tables
  and changes the one at its end; missing tables on the way are made, of the
  origin that the kind of path gives.  A dotted key may only walk through
  tables that no header and no braces made; a header may walk through all but
  inline tables.  At an array of tables both go on in its last element.
-/
import CubeRouting.Toml.Value

namespace CubeRouting.Toml

/-- What a path of keys stands in front of. -/
inductive PathKind where
  /-- A value. -/
  | dottedKey
  /-- A table. -/
  | header
deriving DecidableEq

/-- The origin of the tables that a path makes. -/
def PathKind.origin : PathKind → Origin
  | dottedKey => .dotted
  | header => .implied

/-- A path may go through a table of this origin. -/
def PathKind.passes : PathKind → Origin → Bool
  | dottedKey, .dotted | dottedKey, .implied => true
  | dottedKey, _ => false
  | header, .inline => false
  | header, _ => true

/-- The entries with the table at the end of a path changed by `f`, which is
    given the origin of that table. -/
def enter (kind : PathKind) (f : Origin → Entries → Option Entries) :
    List String → Origin → Entries → Option Entries
  | [], origin, entries => f origin entries
  | key :: path, _, entries =>
    match entries.valueOf? key with
    | none => do
      let inner ← enter kind f path kind.origin []
      return entries.put key (.table kind.origin inner)
    | some (.table origin inner) =>
      if kind.passes origin then do
        let inner ← enter kind f path origin inner
        return entries.put key (.table origin inner)
      else none
    | some (.tables elements) => do
      let last ← elements.getLast?
      let inner ← enter kind f path .header last
      return entries.put key (.tables (elements.dropLast ++ [inner]))
    | some _ => none

/-- A value put at the end of a path of keys inside a table.  The key has to be
    new, and a dotted path has to end in a table that dotted keys made. -/
def assign (entries : Entries) (path : List String) (value : Value) : Option Entries := do
  let key ← path.getLast?
  let way := path.dropLast
  enter .dottedKey
    (fun origin inner =>
      if (origin = .dotted ↔ way = []) ∨ (inner.valueOf? key).isSome then none
      else some (inner.put key value))
    way .header entries

/-- The values of a list of paths put into a table one by one. -/
def assignAll (entries : Entries) (pairs : List (List String × Value)) : Option Entries :=
  pairs.foldlM (fun entries (path, value) => assign entries path value) entries

/-- A part of a document: the values below one header. -/
structure Section where
  path : List String
  /-- The header has double brackets. -/
  repeats : Bool
  pairs : List (List String × Value)

/-- The tables with one section added. -/
def addSection (root : Entries) (s : Section) : Option Entries := do
  let key ← s.path.getLast?
  enter .header
    (fun _ entries =>
      match s.repeats, entries.valueOf? key with
      | true, none => do return entries.put key (.tables [← assignAll [] s.pairs])
      | true, some (.tables elements) => do
        return entries.put key (.tables (elements ++ [← assignAll [] s.pairs]))
      | false, none => do return entries.put key (.table .header (← assignAll [] s.pairs))
      | false, some (.table .implied inner) => do
        return entries.put key (.table .header (← assignAll inner s.pairs))
      | _, _ => none)
    s.path.dropLast .header root

end CubeRouting.Toml
