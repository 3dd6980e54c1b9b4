import QueryTemplate.Request.Datum
import QueryTemplate.Text.Reader
import QueryTemplate.Time.Instant
import QueryTemplate.Width
import QueryTemplate.Decimal.Nearest

namespace QueryTemplate.Toml

open Reader

/-- A space or a tab. -/
def isGap (c : Char) : Bool := c = ' ' || c = '\t'

def gap : Reader Unit := do let _ ← run isGap

def newline : Reader Unit := either (literal "\n") (literal "\r\n")

/-- A character of a comment or a string: the tab is the only control character of ASCII. -/
def isPlain (c : Char) : Bool := c = '\t' || (' ' ≤ c && c ≠ '\x7f')

def comment : Reader Unit := do
  literal "#"
  let _ ← run isPlain

-- Strings.

def isHexDigit (c : Char) : Bool :=
  c.isDigit || ('a' ≤ c && c ≤ 'f') || ('A' ≤ c && c ≤ 'F')

def digitValue (c : Char) : Nat :=
  if c.isDigit then c.toNat - '0'.toNat else c.toLower.toNat - 'a'.toNat + 10

/-- The value of digits in base `b`. -/
def ofDigits (b : Nat) (s : Text) : Nat := s.foldl (fun n c ↦ b * n + digitValue c) 0

/-- The character of a code point that is written with `n` digits. -/
def codePoint (n : Nat) : Reader Char := do
  let v := ofDigits 16 (← exactly n isHexDigit)
  ensure v.isValidChar
  return .ofNat v

def escape : Reader Char := do
  literal "\\"
  match ← one fun _ ↦ true with
  | 'b' => return '\x08'
  | 't' => return '\t'
  | 'n' => return '\n'
  | 'f' => return '\x0c'
  | 'r' => return '\r'
  | '"' => return '"'
  | '\\' => return '\\'
  | 'u' => codePoint 4
  | 'U' => codePoint 8
  | _ => fail

def basicString : Reader Text := do
  literal "\""
  let s ← many (either escape (one fun c ↦ isPlain c && c ≠ '"' && c ≠ '\\'))
  literal "\""
  return s

def literalString : Reader Text := do
  literal "'"
  let s ← run fun c ↦ isPlain c && c ≠ '\''
  literal "'"
  return s

/-- A string between three quotes, which may hold single and double ones. Two more may stand before
the three at the end. A newline at the start does not count. -/
def multiline (q : Char) (content : Reader Text) : Reader Text := do
  literal [q, q, q]
  let _ ← has newline
  let quotes := do
    let s ← run1 (· = q)
    ensure (s.length < 3)
    return s
  let parts ← many (either content quotes)
  let closing ← run (· = q)
  ensure (3 ≤ closing.length ∧ closing.length ≤ 5)
  return parts.flatten ++ closing.drop 3

/-- A newline is the same character on every system. -/
def lineBreak : Reader Text := do
  newline
  return ['\n']

/-- A line break that does not count, nor does what follows up to the next text. -/
def continuation : Reader Text := do
  literal "\\"
  gap
  newline
  let _ ← many (either newline (do let _ ← one isGap))
  return []

def multilineBasic : Reader Text :=
  multiline '"' <| firstOf [lineBreak, continuation, return [← escape],
    return [← one fun c ↦ isPlain c && c ≠ '"' && c ≠ '\\']]

def multilineLiteral : Reader Text :=
  multiline '\'' <| firstOf [lineBreak, return [← one fun c ↦ isPlain c && c ≠ '\'']]

def string : Reader Text := firstOf [multilineBasic, basicString, multilineLiteral, literalString]

-- Keys.

/-- The number of levels that keys and values may have. -/
def maxDepth : Nat := 80

def bareKey : Reader Text := run1 fun c ↦ c.isAlphanum || c = '-' || c = '_'

/-- A part of a key with spaces around it. -/
def keyPart : Reader Text := do
  gap
  let k ← firstOf [basicString, literalString, bareKey]
  gap
  return k

/-- The parts of a key between dots. -/
def key : Reader (List Text) := do
  let k ← keyPart
  let ks ← many (do literal "."; keyPart)
  ensure (ks.length + 1 < maxDepth)
  return k :: ks

-- Numbers.

/-- Digits, perhaps with single underscores between them. -/
def digits (p : Char → Bool) : Reader Text := do
  let c ← one p
  let cs ← many (do let _ ← has (literal "_"); one p)
  return c :: cs

/-- Whether there is a minus sign; a plus sign may stand as well. -/
def sign : Reader Bool := do
  if ← has (literal "-") then return true
  let _ ← has (literal "+")
  return false

/-- Digits without a zero in front of others. -/
def whole : Reader Text := do
  let s ← digits Char.isDigit
  ensure (s = ['0'] ∨ s.head? ≠ some '0')
  return s

def special : Reader Datum := do
  let negative ← sign
  if ← has (literal "inf") then
    return .number (.ofBits (Decimal.infiniteBits + if negative then Decimal.signBit else 0).toUInt64)
  literal "nan"
  return .number (.ofBits (Decimal.infiniteBits + 1).toUInt64)

def exponent : Reader Int := do
  let _ ← one (· ∈ ['e', 'E'])
  let negative ← sign
  let n := Text.toNat (← digits Char.isDigit)
  return if negative then -(n : Int) else n

/-- A number with a fraction or an exponent. It must not be too great, but it may be too small. -/
def number : Reader Datum := do
  let negative ← sign
  let n ← whole
  let f ← maybe (do literal "."; digits Char.isDigit)
  let e ← maybe exponent
  ensure (f.isSome ∨ e.isSome)
  let m := Text.toNat (n ++ f.getD [])
  let k := e.getD 0 - (f.getD []).length
  ensure (negative ∨ Decimal.nearestBits m k ≠ Decimal.infiniteBits)
  return .number (Decimal.nearest negative m k)

/-- A natural number in base `b` after its mark. -/
def based (mark : Text) (b : Nat) (p : Char → Bool) : Reader Int := do
  literal mark
  return ofDigits b (← digits p)

def decimal : Reader Int := do
  let negative ← sign
  let n := Text.toNat (← whole)
  return if negative then -(n : Int) else n

/-- A whole number of 64 bits. -/
def integer : Reader Datum := do
  let n ← firstOf [based "0x" 16 isHexDigit, based "0o" 8 fun c ↦ '0' ≤ c && c ≤ '7',
    based "0b" 2 fun c ↦ c = '0' || c = '1', decimal]
  return .integer (← need (Width.signed? n))

-- Dates.

/-- A number of two digits below `limit`. -/
def pair (limit : Nat) : Reader Unit := do
  ensure (Text.toNat (← exactly 2 Char.isDigit) < limit)

def clock : Reader Unit := do
  pair 24
  literal ":"
  pair 60
  literal ":"
  pair 61
  let _ ← maybe (do literal "."; run1 Char.isDigit)

def offset : Reader Unit :=
  either (do let _ ← one (· ∈ ['Z', 'z'])) do
    let _ ← one (· ∈ ['+', '-'])
    pair 24
    literal ":"
    pair 60

def day : Reader Unit := do
  let year := Text.toNat (← exactly 4 Char.isDigit)
  literal "-"
  let month := Text.toNat (← exactly 2 Char.isDigit)
  literal "-"
  let day := Text.toNat (← exactly 2 Char.isDigit)
  let _ ← need (Time.dayNumber? year month day)

/-- A date, a time of day, or both, and then perhaps an offset. -/
def date : Reader Datum := do
  let both := do
    day
    let _ ← maybe (do
      let _ ← one (· ∈ ['T', 't', ' '])
      clock
      maybe offset)
  either both clock
  return .date

def boolean : Reader Datum :=
  either (do literal "true"; return .bool true) (do literal "false"; return .bool false)

/-- A value without values inside. -/
def scalar : Reader Datum :=
  firstOf [return .text (← string), date, number, special, integer, boolean]

end QueryTemplate.Toml
