import QueryTemplate.Query.Clause
import QueryTemplate.Token.Nesting
import QueryTemplate.Text.Uppercase

namespace QueryTemplate.Query

/-- One step of indentation. -/
def tab : Text := "    "

/-- Two texts with a space between them, or a line break after a line comment. -/
def glue (head tail : Text) : Text :=
  let tail := Text.trimEnd tail
  if tail = [] then head
  else if endsInLineComment head then Text.trimEnd head ++ '\n' :: tail
  else head ++ ' ' :: tail

/-- A separator after a text, put before a line comment at its end. -/
def withSeparator (sep s : Text) : Text :=
  let s := Text.trimEnd s
  match lastToken? (scan s).tokens with
  | some (before, t) =>
    if t.isLineComment then Text.trimEnd (Token.textOf before) ++ sep ++ ' ' :: t.text
    else s ++ sep
  | none => s ++ sep

/-- The comma that stands for itself among predicates. -/
def commaMarker : Text := [',']

/-- Puts comma markers after the predicate before them. -/
def foldMarkers : List Text → List Text
  | [] => []
  | x :: xs => go x xs
where
  go (x : Text) : List Text → List Text
    | [] => [x]
    | y :: ys => if y = commaMarker then go (withSeparator [','] x) ys else x :: go y ys

/-- Several items, one on a line. -/
def itemLines (indent sep : Text) : List Text → List Text
  | [] => []
  | [x] => [indent ++ tab ++ Text.trimEnd x]
  | x :: y :: r => (indent ++ tab ++ withSeparator sep x) :: itemLines indent sep (y :: r)

/-- A keyword and its items: a single one beside it, several below it. -/
def clauseLines (indent keyword sep : Text) : List Text → List Text
  | [] => [indent ++ keyword]
  | [x] => [glue (indent ++ keyword) x]
  | x :: y :: r => (indent ++ keyword) :: itemLines indent sep (x :: y :: r)

def slotLines (indent : Text) (q : Slots) (s : Slot) : List Text :=
  match q.get s with
  | none => []
  | some items =>
    if (Clause.slot s).isPredicate then
      clauseLines indent (Text.upper s.name) [] (foldMarkers items)
    else clauseLines indent (Text.upper s.name) [','] items

/-- The items of a join source, with commas between them. -/
def glueItems (line : Text) : List Text → Text
  | [] => line
  | [x] => glue line x
  | x :: y :: r => glueItems (glue line (withSeparator [','] x)) (y :: r)

/-- A join after its source: aliases, `USING` and `ON`. -/
def joinTail (line : Text) (j : Join Query) : Text :=
  let line := j.aliases.foldl glue line
  let line := if j.columns = [] then line
    else glue line ("USING (" ++ Text.join ", " j.columns ++ ")")
  if j.predicates = [] then line else j.predicates.foldl glue (glue line "ON")

/-- What a parenthesis around the lines of a subquery looks like. -/
def parenthesized (indent : Text) (lines : List Text) : Text :=
  "(\n" ++ Text.join ['\n'] lines ++ '\n' :: indent ++ ")"

/-- The lines of a query, each after `indent`. -/
def lines (indent : Text) : Query → List Text
  | ⟨root, calls, slots, source, joins, unions⟩ =>
    root.map (fun c ↦ indent ++ Text.trimEnd c) ++
    callLines calls ++
    slotLines indent slots .bindings ++
    (if slots.select = some [] then [] else slotLines indent slots .select) ++
    (match source with
      | none => []
      | some (.table items) => clauseLines indent "FROM" [','] items
      | some (.subquery q) =>
        [(slots.aliases.getD []).foldl glue
          (indent ++ "FROM " ++ parenthesized indent (q.lines (indent ++ tab)))]) ++
    joinLines joins ++
    [.prewhere, .condition, .groupBy, .having, .orderBy, .limit].flatMap (slotLines indent slots) ++
    (match unions with
      | none => []
      | some qs => unionLines qs) ++
    slotLines indent slots .format
where
  callLines : List (Text × CallArgs Query) → List Text
    | [] => []
    | (n, .list items) :: r => (indent ++ n ++ "(" ++ Text.join ", " items ++ ")") :: callLines r
    | (n, .statement q) :: r =>
      (indent ++ n ++ parenthesized indent (q.lines (indent ++ tab))) :: callLines r
  joinLines : List (Join Query) → List Text
    | [] => []
    | ⟨kind, .table items, aliases, columns, predicates⟩ :: r =>
      joinTail (glueItems (indent ++ Text.upper kind) items)
        ⟨kind, .table items, aliases, columns, predicates⟩ :: joinLines r
    | ⟨kind, .subquery q, aliases, columns, predicates⟩ :: r =>
      joinTail (glue (indent ++ Text.upper kind) (parenthesized indent (q.lines (indent ++ tab))))
        ⟨kind, .subquery q, aliases, columns, predicates⟩ :: joinLines r
  unionLines : List Query → List Text
    | [] => []
    | q :: r =>
      (indent ++ "UNION ALL") :: Text.join ['\n'] (q.lines indent) :: unionLines r

def printAt (indent : Text) (q : Query) : Text := Text.join ['\n'] (q.lines indent)

/-- The canonical text of a query: one clause on a line, in a fixed order, subqueries indented. -/
def print (q : Query) : Text := q.printAt []

end QueryTemplate.Query
