/-
  Readers of characters.

  A reader takes characters from the front of a list and returns a result with
  the rest, or fails.  `repeated` runs a reader as often as it succeeds and
  takes something; the length of the list bounds how often that is.
-/

namespace CubeRouting.Toml

/-- A reader of a result of type `α`. -/
abbrev Reader := StateT (List Char) Option

namespace Reader

variable {α : Type}

/-- One character of a class. -/
def one (p : Char → Bool) : Reader Char := fun
  | [] => none
  | c :: cs => if p c then some (c, cs) else none

def char (c : Char) : Reader Unit := fun
  | [] => none
  | d :: cs => if d = c then some ((), cs) else none

/-- A given sequence of characters. -/
def word (s : List Char) : Reader Unit := fun cs =>
  if s.isPrefixOf cs then some ((), cs.drop s.length) else none

/-- All characters of a class that follow, perhaps none. -/
def span (p : Char → Bool) : Reader (List Char) := fun cs =>
  some (cs.takeWhile p, cs.dropWhile p)

/-- Exactly `n` characters of a class. -/
def exactly (n : Nat) (p : Char → Bool) : Reader (List Char) := fun cs =>
  if (cs.take n).length = n ∧ (cs.take n).all p then some (cs.take n, cs.drop n) else none

/-- The end of the characters. -/
def done : Reader Unit := fun cs => if cs.isEmpty then some ((), cs) else none

/-- The next character is of a class; it is not taken. -/
def ahead (p : Char → Bool) : Reader Unit := fun cs =>
  match cs with
  | [] => none
  | c :: _ => if p c then some ((), cs) else none

/-- At most `n` results of a reader, as long as it takes something. -/
def repeatedAtMost (r : Reader α) : Nat → Reader (List α)
  | 0 => fun cs => some ([], cs)
  | n + 1 => fun cs =>
    match r cs with
    | none => some ([], cs)
    | some (a, rest) =>
      if rest.length < cs.length then
        match repeatedAtMost r n rest with
        | some (as, rest) => some (a :: as, rest)
        | none => none
      else some ([], cs)

/-- As many results of a reader as there are. -/
def repeated (r : Reader α) : Reader (List α) := fun cs => repeatedAtMost r cs.length cs

/-- At least one result, with separators between them.  A separator that no
    result follows is left. -/
def separated (r : Reader α) (separator : Reader Unit) : Reader (List α) := do
  let first ← r
  let others ← repeated (separator *> r)
  return first :: others

end Reader

end CubeRouting.Toml
