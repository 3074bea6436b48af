/-
  The words of a TOML document: blanks, comments, keys and the values that
  hold no other values.
-/
import CubeRouting.Toml.Reader
import CubeRouting.Toml.Value

namespace CubeRouting.Toml

open Reader

/-! ## Characters -/

def isBlank (c : Char) : Bool := c = ' ' ∨ c = '\t'

/-- Characters that may stand in comments and in quoted text: no control
    character but the tab. -/
def isPlain (c : Char) : Bool := c = '\t' ∨ (0x20 ≤ c.toNat ∧ c.toNat ≠ 0x7f)

def isHexDigit (c : Char) : Bool :=
  c.isDigit || ('a' ≤ c && c ≤ 'f') || ('A' ≤ c && c ≤ 'F')

/-- The value of a digit of any base up to 16. -/
def digitValue (c : Char) : Nat :=
  if c.isDigit then c.toNat - '0'.toNat
  else if 'a' ≤ c ∧ c ≤ 'f' then c.toNat - 'a'.toNat + 10
  else c.toNat - 'A'.toNat + 10

/-- The number that digits of a base denote. -/
def ofDigits (base : Nat) (digits : List Char) : Nat :=
  digits.foldl (fun acc c => base * acc + digitValue c) 0

/-! ## Blanks and comments -/

def blanks : Reader Unit := do let _ ← span isBlank

/-- The end of a line: a line feed, perhaps after a carriage return. -/
def newline : Reader Unit := char '\n' <|> word ['\r', '\n']

/-- A comment, up to the end of its line. -/
def comment : Reader Unit := do
  char '#'
  let _ ← span isPlain

/-- The end of a line or of the document. -/
def lineEnd : Reader Unit := newline <|> done

/-- What may follow on the line of a statement. -/
def lineRest : Reader Unit := do
  blanks
  let _ ← optional comment
  lineEnd

/-- Blanks, comments and line ends. -/
def gap : Reader Unit := do
  let _ ← repeated ((do let _ ← one isBlank) <|> (do let _ ← optional comment; newline))

/-! ## Quoted text -/

/-- The character with the code that hexadecimal digits denote. -/
def codePoint (n : Nat) : Reader Char := do
  let digits ← exactly n isHexDigit
  let code := ofDigits 16 digits
  if h : code.isValidChar then return Char.ofNatAux code h else failure

/-- A character written with a backslash. -/
def escape : Reader Char := do
  char '\\'
  match ← one fun _ => true with
  | 'b' => return '\x08'
  | 't' => return '\t'
  | 'n' => return '\n'
  | 'f' => return '\x0c'
  | 'r' => return '\r'
  | '"' => return '"'
  | '\\' => return '\\'
  | 'u' => codePoint 4
  | 'U' => codePoint 8
  | _ => failure

/-- Text between double quotes on one line. -/
def basicString : Reader String := do
  char '"'
  let cs ← repeated (one (fun c => isPlain c && c != '"' && c != '\\') <|> escape)
  char '"'
  return String.ofList cs

/-- Text between apostrophes on one line, without escapes. -/
def literalString : Reader String := do
  char '\''
  let cs ← span fun c => isPlain c && c != '\''
  char '\''
  return String.ofList cs

/-- One or two quotes that other text follows. -/
def innerQuotes (quote : Char) : Reader (List Char) :=
  (do word [quote, quote]; ahead (· != quote); return [quote, quote]) <|>
  (do char quote; ahead (· != quote); return [quote])

/-- The three quotes that end a text, after up to two that belong to it. -/
def closingQuotes (quote : Char) : Reader (List Char) :=
  (do word (List.replicate 5 quote); return [quote, quote]) <|>
  (do word (List.replicate 4 quote); return [quote]) <|>
  (do word (List.replicate 3 quote); return [])

/-- A backslash at the end of a line, with all blanks and line ends after it. -/
def lineContinuation : Reader (List Char) := do
  char '\\'
  blanks
  newline
  let _ ← repeated ((do let _ ← one isBlank) <|> newline)
  return []

/-- Text between triple quotes, made of the given pieces; a line end after the
    opening quotes does not count. -/
def longString (quote : Char) (piece : Reader (List Char)) : Reader String := do
  word (List.replicate 3 quote)
  let _ ← optional newline
  let body ← repeated (piece <|> (do newline; return ['\n']) <|> innerQuotes quote)
  let last ← closingQuotes quote
  return String.ofList (body.flatten ++ last)

/-- Text between triple double quotes. -/
def longBasicString : Reader String :=
  longString '"' ((do return [← one (fun c => isPlain c && c != '"' && c != '\\')]) <|>
    lineContinuation <|> (do return [← escape]))

/-- Text between triple apostrophes. -/
def longLiteralString : Reader String :=
  longString '\'' (do return [← one (fun c => isPlain c && c != '\'')])

/-- Quoted text. -/
def string : Reader String :=
  longBasicString <|> basicString <|> longLiteralString <|> literalString

/-! ## Keys -/

def isKeyCharacter (c : Char) : Bool := c.isAlphanum || c = '-' || c = '_'

/-- A key without quotes. -/
def bareKey : Reader String := do
  let first ← one isKeyCharacter
  let others ← span isKeyCharacter
  return String.ofList (first :: others)

/-- Keys nest less deep than this, and so do values. -/
def depthLimit : Nat := 80

/-- A path of keys with points between them. -/
def keyPath : Reader (List String) := do
  let path ← separated (blanks *> (basicString <|> literalString <|> bareKey) <* blanks) (char '.')
  if path.length < depthLimit then return path else failure

/-! ## Numbers -/

/-- More digits of a class, each perhaps after an underscore. -/
def moreDigits (p : Char → Bool) : Reader (List Char) :=
  repeated (one p <|> (char '_' *> one p))

/-- Digits of a class, with single underscores between them. -/
def digitRun (p : Char → Bool) : Reader (List Char) := do
  let first ← one p
  let others ← moreDigits p
  return first :: others

/-- A sign, and whether it is a minus. -/
def sign : Reader Bool := do
  match ← optional (one fun c => c = '+' ∨ c = '-') with
  | some c => return c = '-'
  | none => return false

/-- Decimal digits without a leading zero. -/
def wholeDigits : Reader (List Char) :=
  (do let first ← one fun c => c.isDigit && c != '0'
      let others ← moreDigits Char.isDigit
      return first :: others) <|>
  (do char '0'; return ['0'])

/-- Integers are numbers of 64 bits with a sign. -/
def inIntegerRange (i : Int) : Bool := 
  -9223372036854775808 ≤ i ∧ i < 9223372036854775808

/-- An integer in range. -/
def checkedInteger (i : Int) : Reader Value :=
  if inIntegerRange i then return .integer i else failure

/-- An integer in a base other than ten. -/
def basedInteger (mark : Char) (base : Nat) (p : Char → Bool) : Reader Value := do
  word ['0', mark]
  let digits ← digitRun p
  checkedInteger (ofDigits base digits)

def integer : Reader Value :=
  basedInteger 'x' 16 isHexDigit <|>
  basedInteger 'o' 8 (fun c => '0' ≤ c && c ≤ '7') <|>
  basedInteger 'b' 2 (fun c => c = '0' || c = '1') <|>
  (do let negative ← sign
      let digits ← wholeDigits
      let n : Int := ofDigits 10 digits
      checkedInteger (if negative then -n else n))

/-- The exponent of a number. -/
def exponent : Reader Int := do
  let _ ← one fun c => c = 'e' ∨ c = 'E'
  let negative ← sign
  let n : Int := ofDigits 10 (← digitRun Char.isDigit)
  return if negative then -n else n

/-- A number with a fraction or an exponent.  One that is too large is refused
    if it is positive. -/
def decimalFloat : Reader Value := do
  let negative ← sign
  let whole ← wholeDigits
  let fraction ← optional (char '.' *> digitRun Char.isDigit)
  let power ← if fraction.isSome then optional exponent else some <$> exponent
  let places := fraction.getD []
  let size := Binary64.ofDecimal (ofDigits 10 (whole ++ places)) (power.getD 0 - places.length)
  let x := if negative then -size else size
  if x = Binary64.infinity then failure else return .float x

/-- An infinity or a NaN. -/
def namedFloat : Reader Value := do
  let negative ← sign
  let x ← (do word ['i', 'n', 'f']; return Binary64.infinity) <|>
    (do word ['n', 'a', 'n']; return -Binary64.nan)
  return .float (if negative then -x else x)

/-! ## Dates and times -/

/-- A number of exactly `n` digits that lies between two bounds. -/
def bounded (n low high : Nat) : Reader Nat := do
  let k := ofDigits 10 (← exactly n Char.isDigit)
  if low ≤ k ∧ k ≤ high then return k else failure

/-- The number of days of a month. -/
def monthLength (year month : Nat) : Nat :=
  if month = 2 then
    if year % 4 = 0 ∧ (year % 100 ≠ 0 ∨ year % 400 = 0) then 29 else 28
  else if month = 4 ∨ month = 6 ∨ month = 9 ∨ month = 11 then 30
  else 31

/-- A day of the calendar. -/
def date : Reader Unit := do
  let year ← bounded 4 0 9999
  char '-'
  let month ← bounded 2 1 12
  char '-'
  let _ ← bounded 2 1 (monthLength year month)

/-- A time of day; a minute may have a leap second. -/
def time : Reader Unit := do
  let _ ← bounded 2 0 23
  char ':'
  let _ ← bounded 2 0 59
  char ':'
  let _ ← bounded 2 0 60
  let _ ← optional (do
    char '.'
    let _ ← one Char.isDigit
    let _ ← span Char.isDigit)

/-- The distance from universal time. -/
def timeOffset : Reader Unit :=
  (do let _ ← one fun c => c = 'Z' ∨ c = 'z') <|>
  (do let _ ← one fun c => c = '+' ∨ c = '-'
      let _ ← bounded 2 0 23
      char ':'
      let _ ← bounded 2 0 59)

/-- A date, a time, or a date with a time. -/
def moment : Reader Value :=
  (do date
      let _ ← optional (do
        let _ ← one fun c => c = 'T' ∨ c = 't' ∨ c = ' '
        time
        let _ ← optional timeOffset)
      return .moment) <|>
  (do time; return .moment)

/-! ## Values without parts -/

/-- A truth value. -/
def boolean : Reader Value :=
  (do word ['t', 'r', 'u', 'e']; return .boolean true) <|>
  (do word ['f', 'a', 'l', 's', 'e']; return .boolean false)

/-- A value that holds no other values. -/
def scalar : Reader Value :=
  (Value.string <$> string) <|> moment <|> decimalFloat <|> namedFloat <|> integer <|> boolean

end CubeRouting.Toml
