import QueryTemplate.Toml.Lexeme
import QueryTemplate.Toml.Tree

namespace QueryTemplate.Toml

open Reader

/-- Layout inside of an array. -/
def layout : Reader Unit := do
  let _ ← many (firstOf [newline, do let _ ← one isGap, do comment; newline])

/-- Items between commas. -/
def commaSeparated (item : Reader α) : Reader (List α) := do
  match ← maybe item with
  | none => return []
  | some a => return a :: (← many (do literal ","; item))

/-- An array; a comma may stand after its last value. -/
def array (value : Reader Datum) : Reader Datum := do
  literal "["
  let items ← commaSeparated do
    layout
    let d ← value
    layout
    return d
  if items ≠ [] then
    let _ ← has (literal ",")
  layout
  literal "]"
  return .list items

/-- A key and a value. -/
def assignment (value : Reader Datum) : Reader (List Text × Datum) := do
  let k ← key
  literal "="
  gap
  let d ← value
  gap
  return (k, d)

/-- A table on one line. -/
def inlineTable (value : Reader Datum) : Reader Datum := do
  literal "\x7b"
  let pairs ← commaSeparated (assignment value)
  gap
  literal "\x7d"
  let fields ← need (pairs.foldlM (fun fields p ↦ Fields.assign p.2 p.1 fields) [])
  return .table (data fields)

/-- A value with less than `n` levels inside. -/
def value : Nat → Reader Datum
  | 0 => fail
  | n + 1 => firstOf [scalar, array (value n), inlineTable (value n)]

/-- A line of a document. -/
inductive Line
  | blank
  | pair (key : List Text) (value : Datum)
  | table (path : List Text)
  /-- The next table of an array. -/
  | next (path : List Text)

def header (opening closing : Text) : Reader (List Text) := do
  literal opening
  let k ← key
  literal closing
  return k

def line : Reader Line := do
  ensure ((← rest) ≠ [])
  gap
  let l ← firstOf [
    return .next (← header "[[" "]]"),
    return .table (← header "[" "]"),
    do let (k, d) ← assignment (value maxDepth); return .pair k d,
    return .blank]
  gap
  let _ ← has comment
  either newline endOfText
  return l

/-- A document up to some line, with the path of the table that the next pair goes into. -/
structure Document where
  fields : Fields := []
  path : List Text := []

def Document.add (d : Document) : Line → Option Document
  | .blank => some d
  | .pair k v => (Fields.within (Fields.assign v k) d.path d.fields).map ({ d with fields := · })
  | .table p => (Fields.openTable p d.fields).map (⟨·, p⟩)
  | .next p => (Fields.openNext p d.fields).map (⟨·, p⟩)

def document : Reader (List Line) := do
  let _ ← has (literal "\ufeff")
  many line

/-- The data of a TOML document. -/
def parse? (s : Text) : Option Datum := do
  let lines ← document.all s
  let d ← lines.foldlM Document.add {}
  return .table (data d.fields)

end QueryTemplate.Toml
