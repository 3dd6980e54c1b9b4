import QueryTemplate.Error
import QueryTemplate.Width
import QueryTemplate.Time.Instant

namespace QueryTemplate.Time

open Width

/-- The time range of a dashboard. -/
structure Range where
  start : Instant
  stop : Instant
  /-- Whether the range ends now, so that filters need no upper bound. -/
  toNow : Bool := false
  deriving DecidableEq, Repr, Inhabited

/-- The length in milliseconds; zero if the range ends before it starts. -/
def Range.lengthMs (r : Range) : Nat := (r.start.nanosUntil r.stop / milliNanos).toNat

/-- The bounds that filters use, in seconds and in milliseconds. -/
structure Window where
  start : Int
  stop : Int
  startMs : Int
  stopMs : Int
  deriving DecidableEq, Repr

/-- Milliseconds rounded half up to a multiple of `step` seconds; a step of zero keeps them. -/
def roundMs? (ms : Int) (step : Nat) : Option Int :=
  if step = 0 then some ms
  else do
    let unit ← signed? (step * 1000)
    let shifted ← signed? (ms + unit / 2)
    signed? (shifted / unit * unit)

/-- Rounded bounds, so far outside of the range that rounding cuts nothing off. -/
def window? (startMs stopMs : Int) (step : Nat) : Option Window := do
  let lower ← roundMs? startMs step
  let upper ← roundMs? stopMs step
  let margin : Int := (2 * step - 1 : Nat)
  let marginMs ← signed? (margin * 1000)
  return {
    start := ← signed? (lower / 1000 - margin)
    stop := ← signed? (upper / 1000 + margin)
    startMs := ← signed? (lower - marginMs)
    stopMs := ← signed? (upper + marginMs) }

/-- The window of a range, rounded to `step` seconds. -/
def Range.window (r : Range) (step : Nat) : Except Error Window :=
  match window? r.start.millis r.stop.millis step with
  | some w => .ok w
  | none => .error (.badDuration (Text.ofNat step ++ "s"))

end QueryTemplate.Time
