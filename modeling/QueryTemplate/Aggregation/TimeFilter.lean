import QueryTemplate.Token.Nesting

namespace QueryTemplate

open Token

/-- Two texts with a space between them, or a line break after a line comment. -/
def attach (head tail : Text) : Text :=
  let head := Text.trimEnd head
  if endsInLineComment head then head ++ '\n' :: tail else head ++ ' ' :: tail

/-- The clauses before which a missing `WHERE` belongs. -/
def clausesAfterWhere : List Text := ["group by", "having", "order by", "limit", "format"]

/-- Puts a filter in front of the predicates of a statement; without a `WHERE` one is added. -/
def filterTokens (filter : Text) (ts : List Token) : Text :=
  match cutOutside (isClause "where") ts with
  | some (before, t, rest) =>
    textOf before ++ t.text ++ ' ' :: filter ++ " AND" ++ textOf rest
  | none =>
    let condition := "WHERE " ++ filter
    match cutOutside (fun t ↦ t.kind = .clause && clausesAfterWhere.contains t.keyword) ts with
    | some (before, t, rest) => attach (textOf before) condition ++ ' ' :: textOf (t :: rest)
    | none => attach (textOf ts) condition ++ Text.spaceEnd (textOf ts)

def filterStatement (s filter : Text) : Except Error Text := (tokens? s).map (filterTokens filter)

/-- Cuts `FROM (` off the start. -/
def openingSource? (ts : List Token) : Option (List Token × List Token) :=
  match ts.dropWhile isBlank with
  | [] => none
  | f :: us =>
    match us.dropWhile isBlank with
    | [] => none
    | o :: inner =>
      if f.keyword = "from" && o.isOpenParen then
        some (ts.takeWhile isBlank ++ f :: us.takeWhile isBlank ++ [o], inner)
      else none

/-- Filters the text from a `FROM` on: every statement of a union in parentheses, otherwise the
statement itself. -/
def injectTimeFilter (s filter : Text) : Except Error Text :=
  (tokens? s).bind fun ts ↦
    match openingSource? ts with
    | none => .ok (filterTokens filter ts)
    | some (head, inner) =>
      (group [] inner).map fun p ↦
        textOf head ++
          Text.join "UNION ALL" ((splitOutside isUnionAll p.1).map (filterTokens filter)) ++
          ')' :: textOf p.2

end QueryTemplate
