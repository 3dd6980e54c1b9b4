import QueryTemplate.Query.Basic

namespace QueryTemplate

/-- The places of a query that fragments are put into. -/
inductive Clause
  /-- What stands before the first clause keyword. -/
  | root
  | source
  | unions
  | slot (s : Slot)
  /-- The aggregation macro of that name. -/
  | call (name : Text)
  deriving DecidableEq, Repr

def Slot.name : Slot → Text
  | bindings => "with"
  | select => "select"
  | aliases => "aliases"
  | prewhere => "prewhere"
  | condition => "where"
  | groupBy => "group by"
  | having => "having"
  | orderBy => "order by"
  | limit => "limit"
  | format => "format"

namespace Clause

/-- The clauses that a keyword opens. -/
def keywordClauses : List Clause :=
  [.slot .bindings, .slot .select, .source, .slot .prewhere, .slot .condition, .slot .groupBy,
    .slot .having, .slot .orderBy, .slot .limit, .slot .format, .unions]

def name : Clause → Text
  | root => "root"
  | source => "from"
  | unions => "union all"
  | slot s => s.name
  | call n => n

/-- The clause that a keyword opens. -/
def ofKeyword? (w : Text) : Option Clause := keywordClauses.find? fun c ↦ c.name = w

/-- The clause of that name, a macro if no other clause has it. -/
def ofName (n : Text) : Clause :=
  ((root :: slot .aliases :: keywordClauses).find? fun c ↦ c.name = n).getD (call n)

/-- Whether the items are predicates that carry their own `AND` or `OR`. -/
def isPredicate (c : Clause) : Bool := c = slot .condition || c = slot .prewhere

end Clause

namespace Query

/-- The arguments of the macro `n`. -/
def lookupCall (n : Text) (q : Query) : Option (CallArgs Query) := q.calls.lookup n

/-- Enters the arguments of the macro `n`; the names stay in increasing order. -/
def insertCall (n : Text) (a : CallArgs Query) :
    List (Text × CallArgs Query) → List (Text × CallArgs Query)
  | [] => [(n, a)]
  | (m, b) :: r =>
    if n = m then (n, a) :: r
    else if n < m then (n, a) :: (m, b) :: r
    else (m, b) :: insertCall n a r

def setCall (n : Text) (a : CallArgs Query) (q : Query) : Query :=
  { q with calls := insertCall n a q.calls }

/-- Whether a clause was opened. -/
def has (q : Query) : Clause → Bool
  | .root => true
  | .source => q.source.isSome
  | .unions => q.unions.isSome
  | .slot s => (q.slots.get s).isSome
  | .call n => (q.lookupCall n).isSome

/-- Opens a clause without items, unless it is open. -/
def «open» (q : Query) (c : Clause) : Query :=
  if q.has c then q else
    match c with
    | .root => q
    | .source => { q with source := some (.table []) }
    | .unions => { q with unions := some [] }
    | .slot s => { q with slots := q.slots.set [] s }
    | .call n => q.setCall n (.list [])

/-- The fragments of a clause, if it is open and holds fragments. -/
def items (q : Query) : Clause → Option (List Text)
  | .root => some q.root
  | .source =>
    match q.source with
    | some (.table items) => some items
    | _ => none
  | .unions => none
  | .slot s => q.slots.get s
  | .call n =>
    match q.lookupCall n with
    | some (.list items) => some items
    | _ => none

/-- Changes the fragments of a clause, which counts as open. What comes after a subquery in `FROM`
belongs to its aliases. There is nothing to change in a clause that cannot hold fragments. -/
def modify? (q : Query) (c : Clause) (f : List Text → List Text) : Option Query :=
  match c with
  | .root => some { q with root := f q.root }
  | .source =>
    match q.source with
    | none => some { q with source := some (.table (f [])) }
    | some (.table items) => some { q with source := some (.table (f items)) }
    | some (.subquery _) =>
      some { q with slots := q.slots.set (f ((q.slots.get .aliases).getD [])) .aliases }
  | .unions => none
  | .slot s => some { q with slots := q.slots.set (f ((q.slots.get s).getD [])) s }
  | .call n =>
    match q.lookupCall n with
    | none => some (q.setCall n (.list (f [])))
    | some (.list items) => some (q.setCall n (.list (f items)))
    | some (.statement _) => none

/-- The list that `modify?` changes. -/
def editable (q : Query) (c : Clause) : Option (List Text) :=
  match c, q.source with
  | .source, some (.subquery _) => some ((q.slots.get .aliases).getD [])
  | .unions, _ => none
  | .call n, _ =>
    match q.lookupCall n with
    | some (.statement _) => none
    | _ => some ((q.items c).getD [])
  | _, _ => some ((q.items c).getD [])

/-- Puts a fragment at the end of a clause. -/
def push? (q : Query) (c : Clause) (x : Text) : Option Query := q.modify? c (· ++ [x])

/-- Whether nothing but `root` was filled, so that the text was a plain list. -/
def isBareRoot (q : Query) : Bool := q = { root := q.root }

/-- The query reached through subqueries in `FROM`. -/
def innermost : Query → Query
  | ⟨_, _, _, some (.subquery q), _, _⟩ => q.innermost
  | q => q

/-- Changes the query reached through subqueries in `FROM`. -/
def modifyInnermost (f : Query → Query) : Query → Query
  | ⟨root, calls, slots, some (.subquery q), joins, unions⟩ =>
    ⟨root, calls, slots, some (.subquery (q.modifyInnermost f)), joins, unions⟩
  | q => f q

end Query
end QueryTemplate
