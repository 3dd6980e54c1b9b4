import QueryTemplate.Text.Basic
import QueryTemplate.Text.Digit
import QueryTemplate.Token.Recognizer

namespace QueryTemplate.Text

open Recognizer

/-- A string literal: quotes and backslashes inside are put after a backslash. -/
def quote (s : Text) : Text :=
  '\'' :: s.flatMap (fun c ↦ if c = '\\' || c = '\'' then ['\\', c] else [c]) ++ "'"

/-- Names that need no quotes. -/
def isPlainName : Text → Bool
  | c :: d :: s => c.isAlpha && (d :: s).all isNameChar
  | _ => false

/-- A name between the quotes `q`, unless it is plain; `q` itself is put after a backslash. -/
def escapeName (q : Char) (s : Text) : Text :=
  if isPlainName s then s else q :: s.flatMap (fun c ↦ if c = q then ['\\', c] else [c]) ++ [q]

def decimals : Recognizer := many1 isDecimal

/-- A decimal number with white space around it. -/
def numeral : Recognizer :=
  (many isSpace).seq <| (maybe (exactly "-")).seq <| decimals.seq <|
    (maybe ((exactly ".").seq decimals)).seq <|
    (maybe ((one fun c ↦ c = 'e' || c = 'E').seq
      ((maybe (one fun c ↦ c = '-' || c = '+')).seq decimals))).seq <|
    many isSpace

def isNumeral (s : Text) : Bool := numeral s = some []

end QueryTemplate.Text
