import QueryTemplate.Query.Clause
import QueryTemplate.Token.Nesting

namespace QueryTemplate

/-- How a value of one time bucket is compared with the bucket before. -/
inductive Change
  | rate
  | perSecond
  | increase
  | delta
  deriving DecidableEq, Repr

namespace Change

def name : Change → Text
  | rate => "rate"
  | perSecond => "perSecond"
  | increase => "increase"
  | delta => "delta"

/-- What is put after the name of a changed column. -/
def suffix : Change → Text
  | rate => "Rate"
  | perSecond => "PerSecond"
  | increase => "Increase"
  | delta => "Delta"

end Change

/-- The aggregation macros. -/
inductive Aggregation
  /-- An array of keys and values for each time bucket. -/
  | columns
  /-- The same with buckets of milliseconds. -/
  | columnsMs
  /-- The change of each argument. -/
  | plain (c : Change)
  /-- The change of a value by key. -/
  | pivoted (c : Change)
  /-- Changes by subkey, aggregated by key. -/
  | aggregated (c : Change)
  deriving DecidableEq, Repr

namespace Aggregation

/-- All macros; of several in a query the first one here is expanded. -/
def priority : List Aggregation :=
  [columns, columnsMs, pivoted .rate, aggregated .rate, plain .rate, plain .perSecond,
    pivoted .perSecond, aggregated .perSecond, plain .increase, pivoted .increase,
    aggregated .increase, plain .delta, pivoted .delta, aggregated .delta]

/-- The name without the dollar sign. -/
def word : Aggregation → Text
  | columns => "columns"
  | columnsMs => "columnsMs"
  | plain c => c.name
  | pivoted c => c.name ++ "Columns"
  | aggregated c => c.name ++ "ColumnsAggregated"

def name (m : Aggregation) : Text := '$' :: m.word

def ofName? (n : Text) : Option Aggregation := priority.find? fun m ↦ m.name = n

/-- The time filter that the macro puts on its source. -/
def timeFilter : Aggregation → Text
  | columnsMs => "$timeFilterMs"
  | _ => "$timeFilter"

/-- The macro of a query that is to be expanded. -/
def first? (q : Query) : Option Aggregation := priority.find? fun m ↦ q.has (.call m.name)

/-- A macro with the arguments that it accepts. -/
inductive Shape
  | columns (series key value : Text)
  | plain (c : Change) (args : List Text)
  | pivoted (c : Change) (key value : Text)
  /-- Each pair is an aggregate function and the value it is applied to. -/
  | aggregated (c : Change) (key subkey : Text) (pairs : List (Text × Text))
  deriving DecidableEq, Repr

/-- Neighbours taken together, if none is left over. -/
def pairUp? : List Text → Option (List (Text × Text))
  | [] => some []
  | [_] => none
  | f :: v :: r => (pairUp? r).map ((f, v) :: ·)

/-- Checks the number of arguments. -/
def shape (m : Aggregation) (args : List Text) : Except Error Shape :=
  match m, args with
  | .columns, [key, value] => .ok (.columns "$timeSeries" key value)
  | .columnsMs, [key, value] => .ok (.columns "$timeSeriesMs" key value)
  | .plain c, x :: xs => .ok (.plain c (x :: xs))
  | .pivoted c, [key, value] => .ok (.pivoted c key value)
  | .aggregated c, key :: subkey :: f :: v :: r =>
    match pairUp? (f :: v :: r) with
    | some pairs => .ok (.aggregated c key subkey pairs)
    | none => .error (.arity m.name groups args)
  | .aggregated _, _ => .error (.arity m.name groups args)
  | .plain _, [] => .error (.arity m.name "at least 1" args)
  | _, _ => .error (.arity m.name "exactly 2" args)
where
  groups : Text := "key, subkey and at least one function/value pair as"

/-- A macro call and the query text around it. -/
structure Invocation where
  before : Text
  args : Text
  /-- The text from the `FROM` clause to the end. -/
  source : Text
  deriving DecidableEq, Repr

/-- Finds the call of the macro `name` and the first `FROM` outside of parentheses after it. -/
def locate (s name : Text) : Except Error Invocation :=
  let q := scan s
  let other := fun t : Token ↦ !(t.kind = .aggregation && t.text = name)
  match q.tokens.dropWhile other with
  | [] => (atEnd q.rest ()).bind fun _ ↦ .error (.sourceMissing name s)
  | _ :: ts =>
    (callGroup name q.rest ts).bind fun p ↦
      (atEnd q.rest ()).bind fun _ ↦
        match cutOutside (Token.isClause "from") p.2 with
        | none => .error (.sourceMissing name s)
        | some (_, t, ts) =>
          .ok ⟨Token.textOf (q.tokens.takeWhile other), Token.textOf p.1,
            Text.trim (Token.textOf (t :: ts))⟩

end Aggregation
end QueryTemplate
