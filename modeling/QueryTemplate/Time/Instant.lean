import QueryTemplate.Text.Reader

namespace QueryTemplate.Time

/-- Nanoseconds of a second. -/
def secondNanos : Nat := 1000000000

/-- Nanoseconds of a millisecond. -/
def milliNanos : Nat := 1000000

/-- A point in time: whole seconds since the start of 1970 in UTC and nanoseconds after them. A leap
second is the second before it with `secondNanos` more. -/
structure Instant where
  seconds : Int
  nanos : Nat := 0
  deriving DecidableEq, Repr, Inhabited

def isLeapYear (y : Int) : Bool := y % 4 = 0 && (y % 100 ≠ 0 || y % 400 = 0)

/-- Days from the start of the year 1 to the start of another one. -/
def daysBeforeYear (y : Int) : Int :=
  let n := y - 1
  365 * n + n / 4 - n / 100 + n / 400

def monthLengths (y : Int) : List Nat :=
  [31, if isLeapYear y then 29 else 28, 31, 30, 31, 30, 31, 31, 30, 31, 30, 31]

/-- Days from the start of 1970 to a date, if there is such a date. -/
def dayNumber? (year : Int) (month day : Nat) : Option Int := do
  guard (0 < month)
  let length ← (monthLengths year)[month - 1]?
  guard (0 < day && day ≤ length)
  let before : Nat := ((monthLengths year).take (month - 1)).foldl (· + ·) 0
  return daysBeforeYear year - daysBeforeYear 1970 + before + (day - 1 : Nat)

def daySeconds : Int := 24 * 60 * 60

namespace Instant

/-- Milliseconds since the start of 1970, rounded down. -/
def millis (t : Instant) : Int := t.seconds * 1000 + (t.nanos / milliNanos : Nat)

/-- Seconds since midnight. -/
def clock (t : Instant) : Int := t.seconds % daySeconds

/-- Nanoseconds from `s` to `t`. A leap second at one end counts if the other end is on the far side
of it by the clock. -/
def nanosUntil (s t : Instant) : Int :=
  let leap : Int :=
    if s.clock < t.clock && secondNanos ≤ s.nanos then 1
    else if t.clock < s.clock && secondNanos ≤ t.nanos then -1
    else 0
  (t.seconds - s.seconds + leap) * secondNanos + (t.nanos - s.nanos : Int)

/-- The years that instants are in. -/
def firstYear : Int := -262143

def lastYear : Int := 262142

/-- The instant of a count of milliseconds, if it is in these years. -/
def ofMillis? (ms : Int) : Option Instant :=
  let t : Instant := ⟨ms / 1000, (ms % 1000).toNat * milliNanos⟩
  let day := t.seconds / daySeconds + daysBeforeYear 1970
  if daysBeforeYear firstYear ≤ day && day < daysBeforeYear (lastYear + 1) then some t else none

open Reader

def space : Reader Unit := do let _ ← run Text.isSpace

/-- A number of at most `n` digits. -/
def number (n : Nat) : Reader Nat := do
  space
  let s ← runUpTo n Char.isDigit
  ensure (s ≠ [])
  return Text.toNat s

/-- A separator that may have white space before it. -/
def separator (s : Text) : Reader Unit := do
  space
  literal s

/-- A year has four digits at most, or any number of them after a sign. -/
def year : Reader Int := do
  space
  if ← has (literal "-") then
    return -(Text.toNat (← run1 Char.isDigit) : Int)
  else if ← has (literal "+") then
    return Text.toNat (← run1 Char.isDigit)
  else
    return ← number 4

/-- A fraction of a second in nanoseconds; digits after the ninth do not count. -/
def fraction : Reader Nat := do
  if ← has (literal ".") then
    let s ← runUpTo 9 Char.isDigit
    ensure (s ≠ [])
    let _ ← run Char.isDigit
    return Text.toNat s * Nat.pow 10 (9 - s.length)
  else
    return 0

/-- The offset from UTC in seconds. -/
def offset : Reader Int := do
  space
  let s ← rest
  if Text.lower (s.take 3) = "utc".toList then
    let _ ← runUpTo 3 fun _ ↦ true
    return 0
  else if ← has (one (· ∈ ['Z', 'z'])) then
    return 0
  else
    let sign ← one (· ∈ ['+', '-', '\u2212'])
    let hours := Text.toNat (← exactly 2 Char.isDigit)
    let _ ← run fun c ↦ c = ':' || Text.isSpace c
    let minutes := Text.toNat (← exactly 2 Char.isDigit)
    ensure (hours < 24 ∧ minutes < 60)
    let seconds : Int := hours * 3600 + minutes * 60
    return if sign = '+' then seconds else -seconds

/-- A date, a time of day and an offset. -/
def dateTime : Reader Instant := do
  let year ← year
  separator "-"
  let month ← number 2
  separator "-"
  let day ← number 2
  let _ ← one (· ∈ ['T', 't', ' '])
  let hour ← number 2
  separator ":"
  let minute ← number 2
  separator ":"
  let second ← number 2
  let nanos ← fraction
  let offset ← offset
  space
  ensure (firstYear ≤ year ∧ year ≤ lastYear ∧ hour < 24 ∧ minute < 60 ∧ second ≤ 60)
  let days ← need (dayNumber? year month day)
  let leap : Nat := if second = 60 then 1 else 0
  let clock : Nat := hour * 3600 + minute * 60 + second - leap
  return ⟨days * daySeconds + clock - offset, nanos + leap * secondNanos⟩

/-- Reads a time such as `2024-02-29T12:00:00.5+01:00`. -/
def parse? (s : Text) : Option Instant := dateTime.all s

end Instant
end QueryTemplate.Time
