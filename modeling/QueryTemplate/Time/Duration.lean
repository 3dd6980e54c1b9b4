import QueryTemplate.Error
import QueryTemplate.Width

namespace QueryTemplate.Time

open Width

/-- The units of a duration in milliseconds. -/
def units : List (Text × Nat) :=
  [("ms", 1), ("s", 1000), ("m", 60 * 1000), ("h", 60 * 60 * 1000), ("d", 24 * 60 * 60 * 1000),
    ("w", 7 * 24 * 60 * 60 * 1000), ("M", 30 * 24 * 60 * 60 * 1000),
    ("y", 365 * 24 * 60 * 60 * 1000)]

/-- Milliseconds of a number and a unit right after it. -/
def readDuration? (s : Text) : Option Nat := do
  let digits := s.takeWhile Char.isDigit
  guard (digits ≠ [])
  let unit ← units.lookup (s.dropWhile Char.isDigit)
  let n ← unsigned? (Text.toNat digits)
  unsigned? (n * unit)

/-- Milliseconds of a duration such as `15s`, `5m` or `1M`. White space around it does not count,
and white space alone is no time at all. -/
def durationMs (s : Text) : Except Error Nat :=
  let s := Text.trim s
  if s = [] then .ok 0
  else
    match readDuration? s with
    | some n => .ok n
    | none => .error (.badDuration s)

/-- A bucket length in whole seconds, scaled: at least one second and rounded up. -/
def scaledSeconds (ms factor : Nat) : Nat :=
  let seconds := ms.toUInt64.toFloat / 1000
  let seconds := if seconds < 1 then 1 else seconds
  (seconds * (max factor 1).toUInt64.toFloat).ceil.toUInt64.toNat

/-- Seconds of the interval `s`, `factor` times over. -/
def intervalSeconds (s : Text) (factor : Nat) : Except Error Nat :=
  if Text.trim s = [] then .ok 0 else (durationMs s).map fun ms ↦ scaledSeconds ms factor

/-- Milliseconds of the interval `s`, `factor` times over. -/
def intervalMs (s : Text) (factor : Nat) : Except Error Nat :=
  (durationMs s).bind fun ms ↦
    match unsigned? (ms * max factor 1) with
    | some n => .ok n
    | none => .error (.badDuration (Text.trim s))

/-- What stands for the interval as the rounding step. -/
def stepName : Text := "$step"

/-- The rounding step in seconds; zero if there is none. -/
def roundSeconds (round : Option Text) (interval : Nat) : Except Error Nat :=
  match round.map Text.trim with
  | none => .ok 0
  | some s =>
    if s = [] then .ok 0
    else if s = stepName then .ok interval
    else (durationMs s).map (· / 1000)

end QueryTemplate.Time
