import QueryTemplate.Time.Window

namespace QueryTemplate.Time

/-- How a column stores a time. -/
inductive ColumnType
  | dateTime
  | dateTime64
  | unixSeconds
  | unixMillis
  | unixMicros
  | unixNanos
  /-- Seconds with a fraction. -/
  | unixFloat
  deriving DecidableEq, Repr, Inhabited

namespace ColumnType

/-- The names of the types, each in two spellings. -/
def names : List (Text × ColumnType) :=
  [("DateTime", dateTime), ("DATETIME", dateTime), ("DateTime64", dateTime64),
    ("DATETIME64", dateTime64), ("TimeStamp", unixSeconds), ("TIMESTAMP", unixSeconds),
    ("TimeStamp64_3", unixMillis), ("TIMESTAMP64_3", unixMillis), ("TimeStamp64_6", unixMicros),
    ("TIMESTAMP64_6", unixMicros), ("TimeStamp64_9", unixNanos), ("TIMESTAMP64_9", unixNanos),
    ("Float", unixFloat), ("FLOAT", unixFloat)]

def ofName? (s : Text) : Option ColumnType := names.lookup s

/-- The start of the bucket of `x` in buckets of `step`. -/
def bucket (x step : Text) : Text := "(intDiv(" ++ x ++ ", " ++ step ++ ") * " ++ step ++ ")"

/-- The column in whole seconds, if it has no part of a second. -/
def wholeSeconds? : ColumnType → Option Text
  | dateTime => some "toUInt32($dateTimeCol)".toList
  | unixSeconds => some "$dateTimeCol".toList
  | _ => none

/-- The column in milliseconds. -/
def inMillis : ColumnType → Text
  | dateTime | dateTime64 => "toFloat64($dateTimeCol) * 1000"
  | unixSeconds | unixFloat => "$dateTimeCol * 1000"
  | unixMillis => "$dateTimeCol"
  | unixMicros => "$dateTimeCol / 1000"
  | unixNanos => "$dateTimeCol / 1000000"

/-- The bucket of the interval in milliseconds. -/
def timeSeries (c : ColumnType) : Text :=
  match c.wholeSeconds? with
  | some x => bucket x "$interval" ++ " * 1000"
  | none => bucket c.inMillis "($interval * 1000)"

/-- The bucket for intervals with a part of a second. -/
def timeSeriesMs (c : ColumnType) : Text := bucket c.inMillis "$__interval_ms"

/-- The column as a time of the calendar. -/
def calendar : ColumnType → Text
  | dateTime | dateTime64 => "$dateTimeCol"
  | unixSeconds | unixFloat => "toDateTime($dateTimeCol)"
  | unixMillis => "toDateTime(intDiv($dateTimeCol, 1000))"
  | unixMicros => "toDateTime(intDiv($dateTimeCol, 1000000))"
  | unixNanos => "toDateTime(intDiv($dateTimeCol, 1000000000))"

def hourMs : Nat := 60 * 60 * 1000

def dayMs : Nat := 24 * hourMs

/-- Starts of calendar units and the least lengths of ranges that show them. -/
def calendarUnits : List (Nat × Text) :=
  [(2 * 365 * dayMs, "toStartOfYear"), (2 * 30 * dayMs, "toStartOfMonth"),
    (2 * 7 * dayMs, "toMonday"), (2 * dayMs, "toStartOfDay"), (2 * hourMs, "toStartOfHour")]

/-- The bucket of the largest calendar unit that a range shows. -/
def naturalTimeSeries (c : ColumnType) (r : Range) : Text :=
  match calendarUnits.find? fun u ↦ u.1 ≤ r.lengthMs with
  | some (_, start) => "toUInt32(toDateTime(" ++ start ++ "(" ++ c.calendar ++ "))) * 1000"
  | none => c.timeSeries

/-- A bound in seconds as a value of the column. -/
def ofSeconds (bound : Text) : ColumnType → Text
  | dateTime => "toDateTime(" ++ bound ++ ")"
  | dateTime64 => "toDateTime64(" ++ bound ++ ", 3)"
  | unixSeconds => bound
  | unixMillis => bound ++ " * 1000"
  | unixMicros => bound ++ " * 1000000"
  | unixNanos => bound ++ " * 1000000000"
  | unixFloat => "toFloat64(" ++ bound ++ ")"

/-- A bound in milliseconds as a value of the column. -/
def ofMillis (bound : Text) : ColumnType → Text
  | dateTime => "toDateTime(" ++ bound ++ "/1000)"
  | dateTime64 => "toDateTime64(" ++ bound ++ "/1000, 3)"
  | unixSeconds => bound ++ "/1000"
  | unixMillis => bound
  | unixMicros => bound ++ " * 1000"
  | unixNanos => bound ++ " * 1000000"
  | unixFloat => "toFloat64(" ++ bound ++ "/1000)"

end ColumnType

/-- A column between two bounds, or after the lower one if the range ends now. -/
def between (column lower upper : Text) (toNow : Bool) : Text :=
  if toNow then column ++ " >= " ++ lower
  else column ++ " >= " ++ lower ++ " AND " ++ column ++ " <= " ++ upper

namespace ColumnType

def timeFilter (c : ColumnType) : Bool → Text :=
  between "$dateTimeCol" (c.ofSeconds "$from") (c.ofSeconds "$to")

def timeFilterMs (c : ColumnType) : Bool → Text :=
  between "$dateTimeCol" (c.ofMillis "$__from") (c.ofMillis "$__to")

end ColumnType

/-- What a filter on the date column puts before one on the time column. -/
def dateFilter (toNow millis : Bool) : Text :=
  (if millis then between "$dateCol" "toDate($__from/1000)" "toDate($__to/1000)" toNow
    else between "$dateCol" "toDate($from)" "toDate($to)" toNow) ++ " AND "

/-- The filter on a column that the query names. -/
def columnFilter (column : Text) : Text :=
  between column "toDateTime($from)" "toDateTime($to)" false

/-- The same for columns with parts of a second. -/
def columnFilter64 (column : Text) : Text :=
  between column "toDateTime64($__from/1000, 3)" "toDateTime64($__to/1000, 3)" false

end QueryTemplate.Time
