import QueryTemplate.Aggregation.Expand
import QueryTemplate.Query.Parser
import QueryTemplate.Query.Printer
import QueryTemplate.Variable.Conditional
import QueryTemplate.Request.Basic
import QueryTemplate.Time.Duration
import QueryTemplate.Placeholder

namespace QueryTemplate

namespace Options

/-- The configured table with its database. -/
def tableName (o : Options) : Text :=
  let table := Text.escapeName '`' o.table
  if o.database = [] then table else Text.escapeName '`' o.database ++ '.' :: table

/-- How changes between buckets are computed. -/
def mode (o : Options) : Aggregation.Mode := if o.windowFunctions then .window else .running

end Options

/-- The lengths and bounds of a request in numbers. -/
structure Measures where
  interval : Nat
  intervalMs : Nat
  window : Time.Window
  deriving DecidableEq, Repr

namespace Request

def measures (r : Request) : Except Error Measures := do
  let o := r.options
  let interval ← Time.intervalSeconds o.interval o.intervalFactor
  let intervalMs ← Time.intervalMs o.interval o.intervalFactor
  let step ← Time.roundSeconds o.round interval
  let window ← r.range.window step
  return ⟨interval, intervalMs, window⟩

/-- What time filters start with if there is a date column. -/
def datePrefix (r : Request) (millis : Bool) : Text :=
  if r.options.dateColumn.getD [] = [] then [] else Time.dateFilter r.range.toNow millis

/-- Values of the placeholders that hold other placeholders. -/
def expressions (r : Request) : List (Text × Text) :=
  let c := r.options.columnType
  [("timeSeries", c.timeSeries), ("timeSeriesMs", c.timeSeriesMs),
    ("naturalTimeSeries", c.naturalTimeSeries r.range),
    ("timeFilter", r.datePrefix false ++ c.timeFilter r.range.toNow),
    ("timeFilterMs", r.datePrefix true ++ c.timeFilterMs r.range.toNow)]

/-- Values of the other placeholders. -/
def values (r : Request) (m : Measures) (adhoc : Text) : List (Text × Text) :=
  let o := r.options
  [("__from", Text.ofInt m.window.startMs), ("__to", Text.ofInt m.window.stopMs),
    ("__interval_ms", Text.ofNat m.intervalMs), ("table", o.tableName),
    ("dateTimeCol", Text.escapeName '"' o.timeColumn),
    ("dateCol", Text.escapeName '"' (o.dateColumn.getD [])), ("adhoc", adhoc),
    ("from", Text.ofInt m.window.start), ("to", Text.ofInt m.window.stop),
    ("interval", Text.ofNat m.interval)]

/-- Replaces what is left of calls and placeholders after expansion. -/
def fill (r : Request) (adhoc : Text) (s : Text) : Except Error Text := do
  let s ← unescape s
  let s ← replaceCalls "$timeFilterByColumn" Time.columnFilter s
  let s ← replaceCalls "$timeFilter64ByColumn" Time.columnFilter64 s
  let m ← r.measures
  return substitute (fun w ↦ (r.values m adhoc).lookup w) <|
    substitute (fun w ↦ r.expressions.lookup w) s

/-- A query in its text and as it was read, with what `$adhoc` stands for in it. -/
structure Filtered where
  text : Text
  query : Query
  adhoc : Text

/-- Applies the ad-hoc filters: where the text asks for them, or else at the end of `WHERE`. -/
def filtered (r : Request) (s : Text) (q : Query) : Filtered :=
  let target := Target.resolve? q r.options.database r.options.table
  let conditions := Filter.conditions r.filters target
  if conditions = [] || mentions "adhoc" s then ⟨s, q, Filter.render conditions⟩
  else
    let q := Filter.inject q conditions
    ⟨q.print, q, Filter.render []⟩

/-- The plain text of a query template. -/
def compile (r : Request) (template : Text) : Except Error Text := do
  let s ← resolveConditionals r.vars template
  let s := interpolate r.vars s
  let q ← parse s
  let f := r.filtered s q
  let s ← Aggregation.expand r.options.mode f.text f.query
  let s ← r.fill f.adhoc s
  if r.options.skipComments then stripComments s else return s

end Request
end QueryTemplate
