import QueryTemplate.Token.Nesting

namespace QueryTemplate

/-- The clauses that may follow the source of a macro, in their order. -/
inductive TailClause
  | groupBy
  | having
  | orderBy
  | limit
  | settings
  | format
  deriving DecidableEq, Repr

namespace TailClause

/-- All of them in the order in which they must appear. -/
def all : List TailClause := [groupBy, having, orderBy, limit, settings, format]

def keyword : TailClause → Text
  | groupBy => "group by"
  | having => "having"
  | orderBy => "order by"
  | limit => "limit"
  | settings => "settings"
  | format => "format"

def label : TailClause → Text
  | groupBy => "GROUP BY"
  | having => "HAVING"
  | orderBy => "ORDER BY"
  | limit => "LIMIT"
  | settings => "SETTINGS"
  | format => "FORMAT"

def rank : TailClause → Nat
  | groupBy => 0
  | having => 1
  | orderBy => 2
  | limit => 3
  | settings => 4
  | format => 5

/-- The clause that a token opens. `SETTINGS` is a plain name elsewhere. -/
def ofToken? (t : Token) : Option TailClause :=
  all.find? fun c ↦
    c.keyword = t.keyword && t.kind = (if c = settings then Kind.identifier else Kind.clause)

end TailClause

/-- The clauses after the source of a macro. -/
structure Tail where
  groupBy : Option Text := none
  having : Option Text := none
  orderBy : Option Text := none
  limit : Option Text := none
  settings : Option Text := none
  /-- Holds for the whole expanded query. -/
  format : Option Text := none
  deriving DecidableEq, Repr, Inhabited

namespace Tail

def get (x : Tail) : TailClause → Option Text
  | .groupBy => x.groupBy
  | .having => x.having
  | .orderBy => x.orderBy
  | .limit => x.limit
  | .settings => x.settings
  | .format => x.format

def set (x : Tail) (s : Text) : TailClause → Tail
  | .groupBy => { x with groupBy := some s }
  | .having => { x with having := some s }
  | .orderBy => { x with orderBy := some s }
  | .limit => { x with limit := some s }
  | .settings => { x with settings := some s }
  | .format => { x with format := some s }

/-- A keyword and its text after a space, if the clause is there. -/
def clause (label : Text) : Option Text → Text
  | none => []
  | some s => ' ' :: label ++ ' ' :: s

def limits (x : Tail) : Text := clause "LIMIT" x.limit ++ clause "SETTINGS" x.settings

/-- The clauses of the bucketing subquery, grouped and ordered as given unless the query says
otherwise. -/
def render (groupBy orderBy : Text) (x : Tail) : Text :=
  "GROUP BY " ++ x.groupBy.getD groupBy ++ clause "HAVING" x.having ++
    clause "ORDER BY" (some (x.orderBy.getD orderBy)) ++ x.limits

/-- Enters headings and their tokens one after the other; each must come later in the order than
the one before it. -/
def collect (previous : Option TailClause) (x : Tail) :
    List (TailClause × List Token) → Except Error Tail
  | [] => .ok x
  | (c, ts) :: r =>
    match previous with
    | some p =>
      if c.rank ≤ p.rank then .error (.clauseOrder c.label p.label)
      else collect (some c) (x.set (Text.trim (Token.textOf ts)) c) r
    | none => collect (some c) (x.set (Text.trim (Token.textOf ts)) c) r

/-- Takes the trailing clauses off the text of a source. -/
def split (s : Text) : Except Error (Text × Tail) :=
  (tokens? s).bind fun ts ↦
    let q := sections (fun t ↦ (TailClause.ofToken? t).isSome) 0 ts
    let parts := q.parts.filterMap fun p ↦ (TailClause.ofToken? p.1).map fun c ↦ (c, p.2)
    (collect none {} parts).map fun x ↦ (Token.textOf q.lead, x)

end Tail
end QueryTemplate
