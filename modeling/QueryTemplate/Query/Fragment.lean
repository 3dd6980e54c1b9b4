import QueryTemplate.Token.Nesting
import QueryTemplate.Text.Alphanumeric

namespace QueryTemplate

/-- The text of an expression, put together from tokens with normal spacing. -/
structure Fragment where
  text : Text := []
  /-- Parentheses opened less parentheses closed. -/
  depth : Int := 0
  /-- Whether it holds anything but comments. -/
  hasCode : Bool := false
  /-- Whether it ends in a line comment. -/
  lineComment : Bool := false
  deriving DecidableEq, Repr, Inhabited

namespace Fragment

/-- Words before which a `(` starts a group, and after which it therefore takes a space. -/
def spacedWords : List Text :=
  ["and", "or", "not", "in", "as", "when", "then", "else", "case", "by", "on", "using", "exists",
    "like", "ilike", "between", "is", "interval", "over", "distinct"]

/-- Functions whose call in `FROM` is one item. -/
def tableFunctions : List Text :=
  ["remote", "remotesecure", "cluster", "clusterallreplicas", "file", "url", "numbers",
    "numbers_mt", "zeros", "merge", "mysql", "postgresql", "jdbc", "odbc", "hdfs", "s3",
    "s3cluster", "input", "generaterandom", "dictionary", "values", "view"]

/-- The word at the end of a text, in lower case. -/
def trailingWord (s : Text) : Text :=
  Text.lower (s.reverse.takeWhile fun c ↦ Text.isAlphanumeric c || c = '_').reverse

/-- Characters that a `(`, `[` or `.` follows without a space. -/
def attaches (c : Char) : Bool :=
  Text.isAlphanumeric c || c = '_' || c = ')' || c = ']' || c = '`' || c = '"'

/-- Whether a space goes between a text and a token put after it. -/
def needsSpace (s : Text) (t : Token) : Bool :=
  match s.getLast? with
  | none => false
  | some c =>
    if Text.isSpace c || c = '(' || c = '[' || c = '.' || c = '!' then false
    else if t.kind = .closing then false
    else if t.kind = .punctuation && (t.text = [','] || t.text = [';']) then false
    else if t.text.head? = some '.' then !attaches c
    else if t.kind = .opening then !attaches c || spacedWords.contains (trailingWord s)
    else true

def isEmpty (f : Fragment) : Bool := Text.trim f.text = []

/-- Whether no parenthesis is open. -/
def isBalanced (f : Fragment) : Bool := f.depth ≤ 0

/-- Whether a call of a table function comes next. -/
def endsInTableFunction (f : Fragment) : Bool :=
  tableFunctions.contains (trailingWord (Text.trim f.text))

def pushToken (t : Token) (f : Fragment) : Fragment where
  text := f.text ++ (if needsSpace f.text t then [' '] else []) ++ t.text
  depth := if t.isOpenParen then f.depth + 1 else if t.isCloseParen then f.depth - 1 else f.depth
  hasCode := true
  lineComment := false

/-- A comment ends its line, so that it stays with what follows. -/
def pushComment (t : Token) (f : Fragment) : Fragment :=
  { f with
    text := f.text ++ (if f.text.getLast?.any (!Text.isSpace ·) then [' '] else []) ++ t.text ++
      ['\n']
    lineComment := t.isLineComment }

/-- Puts a text with balanced parentheses at the end as it is. -/
def pushText (s : Text) (f : Fragment) : Fragment :=
  { f with text := f.text ++ s, hasCode := true, lineComment := false }

/-- The finished text, if it is not blank. A line comment at its end keeps its newline. -/
def take? (f : Fragment) : Option Text :=
  let s := Text.trim f.text
  if s = [] then none else some (if f.lineComment then s ++ ['\n'] else s)

end Fragment
end QueryTemplate
