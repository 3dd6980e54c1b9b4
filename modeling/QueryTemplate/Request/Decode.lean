import QueryTemplate.Request.Basic
import QueryTemplate.Request.Datum
import QueryTemplate.Decimal.Nearest

namespace QueryTemplate

/-- Numbers, texts and lists of values. -/
def Value.ofDatum? : Datum → Option Value
  | .integer n => some (.number (Decimal.ofInt n))
  | .number x => some (.number x)
  | .text s => some (.text s)
  | .list items => (go items).map .list
  | _ => none
where
  go : List Datum → Option (List Value)
    | [] => some []
    | d :: ds => (ofDatum? d).bind fun v ↦ (go ds).map (v :: ·)

def FilterValue.ofDatum? : Datum → Option FilterValue
  | .integer n => some (.number (Decimal.ofInt n))
  | .number x => some (.number x)
  | .text s => some (.text s)
  | _ => none

/-- Names of the kinds of variables. -/
def VariableKind.names : List (Text × VariableKind) :=
  [("query", query), ("custom", custom), ("textbox", textbox), ("constant", constant),
    ("interval", interval), ("datasource", datasource), ("adhoc", adhoc)]

open Datum

def VariableKind.ofDatum? (d : Datum) : Option VariableKind :=
  d.text?.bind fun s ↦ VariableKind.names.lookup s

def Time.ColumnType.ofDatum? (d : Datum) : Option Time.ColumnType :=
  d.text?.bind Time.ColumnType.ofName?

def Time.Instant.ofDatum? (d : Datum) : Option Time.Instant :=
  d.text?.bind Time.Instant.parse?

def Variable.ofDatum? (d : Datum) : Option Variable := do
  let fields ← d.record?
    ["name", "type", "current", "multi", "include_all", "options", "all_value"]
  return {
    name := ← field fields "name" text?
    kind := ← fieldOr fields "type" VariableKind.ofDatum? .query
    current := ← fieldOr fields "current" Value.ofDatum? (.text [])
    multi := ← fieldOr fields "multi" bool? false
    includeAll := ← fieldOr fields "include_all" bool? false
    options := ← fieldOr fields "options" (list? Value.ofDatum?) []
    allValue := ← fieldOr fields "all_value" (nullable? text?) none }

def Filter.ofDatum? (d : Datum) : Option Filter := do
  let fields ← d.record? ["key", "operator", "value"]
  return {
    key := ← field fields "key" text?
    operator := ← field fields "operator" text?
    value := ← field fields "value" FilterValue.ofDatum? }

def Time.Range.ofDatum? (d : Datum) : Option Time.Range := do
  let fields ← d.record? ["from", "to", "to_now"]
  return {
    start := ← field fields "from" Time.Instant.ofDatum?
    stop := ← field fields "to" Time.Instant.ofDatum?
    toNow := ← fieldOr fields "to_now" bool? false }

def Options.ofDatum? (d : Datum) : Option Options := do
  let fields ← d.record?
    ["interval", "interval_factor", "round", "database", "table", "date_column",
      "date_time_column", "date_time_type", "skip_comments", "use_window_functions"]
  let default : Options := {}
  return {
    interval := ← fieldOr fields "interval" text? default.interval
    intervalFactor := ← fieldOr fields "interval_factor" count? default.intervalFactor
    round := ← fieldOr fields "round" (nullable? text?) default.round
    database := ← fieldOr fields "database" text? default.database
    table := ← fieldOr fields "table" text? default.table
    dateColumn := ← fieldOr fields "date_column" (nullable? text?) default.dateColumn
    timeColumn := ← fieldOr fields "date_time_column" text? default.timeColumn
    columnType := ← fieldOr fields "date_time_type" Time.ColumnType.ofDatum? default.columnType
    skipComments := ← fieldOr fields "skip_comments" bool? default.skipComments
    windowFunctions := ← fieldOr fields "use_window_functions" bool? default.windowFunctions }

def Request.ofDatum? (d : Datum) : Option Request := do
  let fields ← d.record? ["options", "variables", "time_range", "ad_hoc_filters"]
  return {
    options := ← fieldOr fields "options" Options.ofDatum? {}
    vars := ← fieldOr fields "variables" (list? Variable.ofDatum?) []
    range := ← field fields "time_range" Time.Range.ofDatum?
    filters := ← fieldOr fields "ad_hoc_filters" (list? Filter.ofDatum?) [] }

end QueryTemplate
