import QueryTemplate.Query.Clause
import QueryTemplate.Query.Fragment

namespace QueryTemplate

open Token

/-- A query while it is read: the clauses so far, the one that is being filled, and the expression
that is not finished. -/
structure Draft where
  query : Query := {}
  clause : Clause := .root
  fragment : Fragment := {}
  deriving Inhabited

namespace Draft

/-- Puts an item into the current clause. -/
def push (x : Text) (d : Draft) : Draft :=
  match d.query.push? d.clause x with
  | some q => { d with query := q }
  | none => { d with query := { d.query with root := d.query.root ++ [x] } }

/-- Puts comments after the last item of the current clause, if there is one. -/
def pushToLast? (x : Text) (d : Draft) : Option Draft := do
  let items ← d.query.editable d.clause
  let last ← items.getLast?
  let q ← d.query.modify? d.clause fun xs ↦ xs.dropLast ++ [last ++ ' ' :: x]
  return { d with query := q }

/-- Finishes the expression and puts it into the current clause. Comments alone stay with the item
before them. -/
def flush (d : Draft) : Draft :=
  let r : Draft := { d with fragment := {} }
  match d.fragment.take? with
  | none => r
  | some x => if d.fragment.hasCode then r.push x else (r.pushToLast? x).getD (r.push x)

def pushToken (t : Token) (d : Draft) : Draft := { d with fragment := d.fragment.pushToken t }

def pushComment (t : Token) (d : Draft) : Draft := { d with fragment := d.fragment.pushComment t }

def pushText (x : Text) (d : Draft) : Draft := { d with fragment := d.fragment.pushText x }

/-- Goes on in a clause that its keyword opens. -/
def openClause (c : Clause) (d : Draft) : Draft :=
  { d.flush with query := d.flush.query.open c, clause := c }

/-- A comma ends an item. Among the predicates of `WHERE` it is an item itself. -/
def comma (d : Draft) : Draft :=
  if d.clause = .slot .condition then d.flush.push [','] else d.flush

/-- `AND` and `OR` start the next predicate. -/
def conjunction (t : Token) (d : Draft) : Draft :=
  (if d.fragment.isBalanced then d.flush else d).pushToken t

/-- A macro stands in for the `SELECT` clause. -/
def addCall (n : Text) (a : CallArgs Query) (d : Draft) : Draft :=
  { d with query := (d.query.setCall n a).open (.slot .select) }

def addJoin (j : Join Query) (d : Draft) : Draft :=
  { d with query := { d.query with joins := d.query.joins ++ [j] } }

/-- A subquery in `FROM`; what follows are its aliases. -/
def setSubquery (q : Query) (d : Draft) : Draft :=
  { d with query := { d.query with source := some (.subquery q) }, clause := .slot .aliases }

/-- Whether nothing stands in `FROM` yet. -/
def sourceIsEmpty (d : Draft) : Bool :=
  d.fragment.isEmpty && (d.query.items .source).all (· = [])

/-- What reading a token means. -/
inductive Action
  | skip
  | pushToken
  | pushComment
  | openClause (c : Clause)
  | readUnions
  | readJoin
  | readCall
  | comma
  | sourceParen
  | conjunction
  | membership
  deriving DecidableEq

/-- Keywords, joins, macros and commas count only outside of parentheses, and a clause opens only
once. -/
def action (d : Draft) (t : Token) : Action :=
  let outer := d.fragment.isBalanced
  match t.kind with
  | .blank => .skip
  | .comment => .pushComment
  | .membership => .membership
  | .conjunction => if d.clause.isPredicate then .conjunction else .pushToken
  | .clause =>
    match Clause.ofKeyword? t.keyword with
    | none => .pushToken
    | some c =>
      if !outer || d.query.has c then .pushToken
      else if c = .unions then .readUnions
      else .openClause c
  | .join => if outer then .readJoin else .pushToken
  | .aggregation => if outer then .readCall else .pushToken
  | .punctuation => if outer && t.isComma then .comma else .pushToken
  | .opening =>
    if outer && t.isOpenParen && d.clause = .source then .sourceParen else .pushToken
  | _ => .pushToken

end Draft
end QueryTemplate
