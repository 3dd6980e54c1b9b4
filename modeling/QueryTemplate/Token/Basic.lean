import QueryTemplate.Text.Basic

namespace QueryTemplate

/-- The classes of tokens. -/
inductive Kind
  /-- A clause keyword such as `SELECT`, `GROUP BY` or `UNION ALL`. -/
  | clause
  /-- A join phrase such as `GLOBAL ANY LEFT JOIN`. -/
  | join
  /-- `USING` or `ON` after a join source. -/
  | joinConstraint
  /-- `AND` or `OR`. -/
  | conjunction
  /-- `IN`, `NOT IN`, `GLOBAL IN` or `GLOBAL NOT IN`. -/
  | membership
  | identifier
  | string
  | number
  | operator
  /-- `(` or `[`. -/
  | opening
  /-- `)` or `]`. -/
  | closing
  | punctuation
  /-- The name of an aggregation macro, such as `$rate`. -/
  | aggregation
  /-- Any other name after a dollar sign. -/
  | placeholder
  | comment
  | blank
  deriving DecidableEq, Repr

/-- A piece of a query text and its class. -/
structure Token where
  kind : Kind
  text : Text
  deriving DecidableEq, Repr

/-- A token at its byte offset in the text it was read from. -/
structure Located extends Token where
  offset : Nat
  deriving DecidableEq, Repr

namespace Token

def isBlank (t : Token) : Bool := t.kind = .blank

def isOpenParen (t : Token) : Bool := t.kind = .opening && t.text = ['(']

def isCloseParen (t : Token) : Bool := t.kind = .closing && t.text = [')']

def isComma (t : Token) : Bool := t.kind = .punctuation && t.text = [',']

def isLineComment (t : Token) : Bool := t.kind = .comment && ['-', '-'].isPrefixOf t.text

/-- The words of a token in lower case, one space between them: `GROUP\n BY` is `group by`. -/
def keyword (t : Token) : Text := Text.join [' '] ((Text.words t.text).map Text.lower)

/-- Whether the token is the clause keyword `w`. -/
def isClause (w : Text) (t : Token) : Bool := t.kind = .clause && t.keyword = w

/-- The text that a run of tokens was read from. -/
def textOf (ts : List Token) : Text := ts.flatMap Token.text

@[simp] theorem textOf_nil : textOf [] = [] := rfl

@[simp] theorem textOf_cons (t : Token) (ts : List Token) :
    textOf (t :: ts) = t.text ++ textOf ts := rfl

@[simp] theorem textOf_append (ts us : List Token) : textOf (ts ++ us) = textOf ts ++ textOf us := by
  simp [textOf]

/-- The tokens at their offsets, the first one at `n`. -/
def place (n : Nat) : List Token → List Located
  | [] => []
  | t :: ts => ⟨t, n⟩ :: place (n + Text.bytes t.text) ts

end Token

/-- The offset just past a token. -/
def Located.stop (t : Located) : Nat := t.offset + Text.bytes t.text

end QueryTemplate
