import QueryTemplate.Filter.Target
import QueryTemplate.Error
import QueryTemplate.Decimal.Basic
import QueryTemplate.Text.Quoted

namespace QueryTemplate

/-- The value of an ad-hoc filter. -/
inductive FilterValue
  | number (x : Float)
  | text (s : Text)
  deriving Inhabited

/-- A literal for the value; numerals are not quoted. -/
def FilterValue.literal : FilterValue → Text
  | number x => Decimal.literal x
  | text s => if Text.isNumeral s then Text.trim s else Text.quote s

/-- A predicate on a column that holds only for queries on the table of its key. -/
structure Filter where
  /-- `column`, `table.column` or `database.table.column`. -/
  key : Text
  operator : Text
  value : FilterValue
  deriving Inhabited

namespace Filter

/-- The operators and what is written for them. -/
def operators : List (Text × Text) :=
  [("=", "="), ("!=", "!="), ("<>", "<>"), (">", ">"), ("<", "<"), (">=", ">="), ("<=", "<="),
    ("=~", "LIKE"), ("!~", "NOT LIKE")]

def operator? (s : Text) : Option Text := operators.lookup (Text.trim s)

/-- Whether a part of a key names this; an asterisk names everything. -/
def names (part name : Text) : Bool := part = ['*'] || part = name

/-- Database, table and column of a key; what it leaves out is taken from the target. -/
def qualify (target : Option Target) (parts : List Text) :
    Except FilterFault (Text × Text × Text) :=
  if parts.contains [] then .error .emptyPart
  else
    match parts, target with
    | [d, t, c], _ => .ok (d, t, c)
    | [t, c], some x => .ok (x.database, t, c)
    | [c], some x => .ok (x.database, x.table, c)
    | [_], none => .error .unqualified
    | [_, _], none => .error .unqualified
    | _, _ => .error .partCount

/-- The predicate for a target; none, if the filter is for another table. -/
def condition (f : Filter) (target : Option Target) : Except Error (Option Text) :=
  match qualify target ((Text.splitBy (· = '.') f.key).map Text.trim), operator? f.operator with
  | .error e, _ => .error (.filterFormat f.key e)
  | .ok _, none => .error (.filterFormat f.key .operator)
  | .ok (d, t, c), some o =>
    .ok (target.bind fun x ↦
      if names d x.database && names t x.table then
        some (c ++ ' ' :: o ++ ' ' :: f.value.literal)
      else none)

/-- The predicates of the filters for a target. Malformed filters have none. -/
def conditions (fs : List Filter) (target : Option Target) : List Text :=
  fs.filterMap fun f ↦
    match f.condition target with
    | .ok r => r
    | .error _ => none

/-- Predicates put after those of a list, each but the first of all with `AND`. -/
def conjoin (items conditions : List Text) : List Text :=
  conditions.foldl (fun items c ↦ items ++ [(if items = [] then c else "AND " ++ c : Text)]) items

/-- Puts predicates at the end of `WHERE` in the innermost query. -/
def inject (q : Query) (conditions : List Text) : Query :=
  if conditions = [] then q
  else q.modifyInnermost fun r ↦
    { r with slots := r.slots.set (conjoin (r.slots.condition.getD []) conditions) .condition }

/-- All predicates as one, which is true if there are none. -/
def render (conditions : List Text) : Text :=
  if conditions = [] then "1" else "(" ++ Text.join " AND " conditions ++ ")"

end Filter
end QueryTemplate
