import QueryTemplate.Text.Basic
import QueryTemplate.Text.Printable

namespace QueryTemplate

/-- Nested data as it is shown to a reader: an item is one word, or parts between brackets, each
with a label before it. -/
inductive Outline
  | word (s : Text)
  | group (opening closing : Text) (parts : List (Text × Outline))
  deriving Inhabited

namespace Outline

/-- A character in quotes. -/
def showChar (c : Char) : Text :=
  match c with
  | '\x00' => "\\0"
  | '\t' => "\\t"
  | '\r' => "\\r"
  | '\n' => "\\n"
  | '"' => "\\\""
  | '\\' => "\\\\"
  | c => if Text.isPrintable c then [c] else "\\u\x7b" ++ Nat.toDigits 16 c.toNat ++ "\x7d"

def showText (s : Text) : Text := '"' :: s.flatMap showChar ++ ['"']

def text (s : Text) : Outline := word (showText s)

def list (items : List Outline) : Outline := group "[" "]" (items.map fun x ↦ ([], x))

/-- A name with one part in parentheses. -/
def wrap (name : Text) (x : Outline) : Outline := group (name ++ ['(']) ")" [([], x)]

def option : Option Outline → Outline
  | some x => wrap "Some" x
  | none => word "None"

/-- A name with fields in braces. -/
def record (name : Text) (fields : List (Text × Outline)) : Outline :=
  group (name ++ " \x7b") "\x7d" (fields.map fun f ↦ (f.1 ++ ": ", f.2))

def map (entries : List (Text × Outline)) : Outline :=
  group "\x7b" "\x7d" (entries.map fun e ↦ (showText e.1 ++ ": ", e.2))

/-- Shows each part on lines of its own, one step further in than its brackets. -/
def render (indent : Text) : Outline → Text
  | word s => s
  | group opening closing [] => opening ++ closing
  | group opening closing (p :: ps) =>
    opening ++ '\n' :: parts (indent ++ "    ") (p :: ps) ++ indent ++ closing
where
  parts (indent : Text) : List (Text × Outline) → Text
    | [] => []
    | (label, x) :: r => indent ++ label ++ x.render indent ++ ",\n" ++ parts indent r

end Outline
end QueryTemplate
