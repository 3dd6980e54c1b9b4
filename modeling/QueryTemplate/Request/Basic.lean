import QueryTemplate.Variable.Basic
import QueryTemplate.Filter.Basic
import QueryTemplate.Time.Column

namespace QueryTemplate

/-- What a query reads from, how it is bucketed and how it is written. -/
structure Options where
  /-- The length of a bucket. -/
  interval : Text := "30s"
  intervalFactor : Nat := 1
  /-- What the time range is rounded to. -/
  round : Option Text := none
  database : Text := []
  table : Text := []
  /-- A column of dates, for time filters that skip partitions. -/
  dateColumn : Option Text := none
  timeColumn : Text := "timestamp"
  columnType : Time.ColumnType := .dateTime
  skipComments : Bool := false
  windowFunctions : Bool := false
  deriving Inhabited

/-- All that the host supplies besides the text of a query. -/
structure Request where
  options : Options := {}
  vars : List Variable := []
  range : Time.Range
  filters : List Filter := []
  deriving Inhabited

end QueryTemplate
