/-
  TOML documents.

  A document is read in two steps: its characters into statements, one per
  line, and the statements into the tables that they build (`Document.read?`).
-/
import CubeRouting.Toml.Lexical
import CubeRouting.Toml.Tree

namespace CubeRouting.Toml

open Reader

/-! ## Values -/

/-- Values between brackets; a comma may follow the last. -/
def array (element : Reader Value) : Reader Value := do
  char '['
  let elements ← optional (separated (gap *> element <* gap) (char ','))
  if elements.isSome then
    let _ ← optional (char ',')
  gap
  char ']'
  return .array (elements.getD [])

/-- Pairs between braces on one line; no comma may follow the last. -/
def inlineTable (element : Reader Value) : Reader Value := do
  char '\x7b'
  let pair : Reader (List String × Value) := do
    let path ← keyPath
    char '='
    let value ← blanks *> element <* blanks
    return (path, value)
  let pairs ← optional (separated pair (char ','))
  blanks
  char '\x7d'
  match assignAll [] (pairs.getD []) with
  | some entries => return .table .inline entries
  | none => failure

/-- A value that nests at most `depth` deep. -/
def value : Nat → Reader Value
  | 0 => scalar
  | depth + 1 => scalar <|> array (value depth) <|> inlineTable (value depth)

/-! ## Statements -/

/-- A line of a document. -/
inductive Statement where
  /-- Nothing but a comment. -/
  | blank
  /-- A key with its value. -/
  | pair (path : List String) (value : Value)
  /-- A header in single brackets, or in double ones if it repeats. -/
  | header (path : List String) (repeats : Bool)

def header : Reader Statement :=
  (do word ['[', '[']
      let path ← keyPath
      word [']', ']']
      return .header path true) <|>
  (do char '['
      let path ← keyPath
      char ']'
      return .header path false)

/-- A key with its value. -/
def pair : Reader Statement := do
  let path ← keyPath
  char '='
  blanks
  return .pair path (← value (depthLimit - 1))

/-- A line. -/
def statement : Reader Statement :=
  (do comment; lineEnd; return .blank) <|>
  (do newline; return .blank) <|>
  ((header <|> pair) <* lineRest)

/-- The lines of a document, after a byte order mark if there is one. -/
def statements : Reader (List Statement) := do
  let _ ← optional (char '\ufeff')
  blanks
  let lines ← repeated (statement <* blanks)
  done
  return lines

/-! ## Documents -/

/-- The pairs above the first header, and the sections of all headers. -/
def sections : List Statement → List (List String × Value) × List Section
  | [] => ([], [])
  | .blank :: rest => sections rest
  | .pair path value :: rest => ((path, value) :: (sections rest).1, (sections rest).2)
  | .header path repeats :: rest =>
    ([], ⟨path, repeats, (sections rest).1⟩ :: (sections rest).2)

/-- The tables of a document. -/
def build (lines : List Statement) : Option Entries := do
  let parts := sections lines
  parts.2.foldlM addSection (← assignAll [] parts.1)

/-- The entries of the document that a text holds. -/
def read? (text : String) : Option Entries := do
  let (lines, _) ← statements.run text.toList
  build lines

end CubeRouting.Toml
