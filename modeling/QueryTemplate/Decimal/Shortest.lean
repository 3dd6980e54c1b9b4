namespace QueryTemplate.Decimal

/-- A floating-point number taken apart: its value is `m * 2 ^ q`, below zero if `negative`. -/
inductive Binary
  | nan
  | infinite (negative : Bool)
  | finite (negative : Bool) (m : Nat) (q : Int)
  deriving DecidableEq, Repr

/-- `2 ^ 52`; the fraction in the bits of a number is below it. -/
def fractionLimit : Nat := 4503599627370496

/-- `2 ^ 63`, the bit of numbers below zero. -/
def signBit : Nat := 9223372036854775808

/-- The parts of a number of 64 bits. -/
def Binary.ofBits (bits : Nat) : Binary :=
  let negative := signBit ≤ bits
  let exponent : Nat := bits / fractionLimit % 2048
  let fraction : Nat := bits % fractionLimit
  if exponent = 2047 then if fraction = 0 then .infinite negative else .nan
  else if exponent = 0 then .finite negative fraction (-1074)
  else .finite negative (fractionLimit + fraction) ((exponent : Int) - 1075)

def Binary.ofFloat (x : Float) : Binary := .ofBits x.toBits.toNat

/-- The numbers that round to `m * 2 ^ q`, in quarters of `2 ^ q`. Below a power of two the next
number is only half as far away. -/
structure Neighbourhood where
  low : Nat
  value : Nat
  high : Nat
  /-- Whether the ends round to the number. -/
  closed : Bool

def neighbourhood (m : Nat) (q : Int) : Neighbourhood where
  low := if m = fractionLimit && q ≠ -1074 then 4 * m - 1 else 4 * m - 2
  value := 4 * m
  high := 4 * m + 2
  closed := m % 2 = 0

/-- The multiple `d * 10 ^ k` nearest to the number, if some multiple of `10 ^ k` rounds to it. -/
def onGrid? (h : Neighbourhood) (q k : Int) : Option Nat :=
  let u := q - 2
  let unit := Nat.pow 10 k.toNat * Nat.pow 2 (-u).toNat
  let scale := Nat.pow 2 u.toNat * Nat.pow 10 (-k).toNat
  let inside := fun d ↦
    if h.closed then h.low * scale ≤ d * unit && d * unit ≤ h.high * scale
    else h.low * scale < d * unit && d * unit < h.high * scale
  let d := h.value * scale / unit
  if inside d then
    if inside (d + 1) && (d + 1) * unit - h.value * scale < h.value * scale - d * unit then
      some (d + 1)
    else some d
  else if inside (d + 1) then some (d + 1) else none

/-- The first of the grids of `10 ^ k`, `10 ^ (k - 1)` and so on, `n` of them, that has a hit. -/
def firstGrid (h : Neighbourhood) (q k : Int) : Nat → Nat × Int
  | 0 => (h.value, q)
  | n + 1 =>
    match onGrid? h q k with
    | some d => (d, k)
    | none => firstGrid h q (k - 1) n

/-- The decimal `d * 10 ^ k` of the fewest digits that reads back as `m * 2 ^ q`, the nearest of
those. -/
def shortest (m : Nat) (q : Int) : Nat × Int := firstGrid (neighbourhood m q) q 309 640

end QueryTemplate.Decimal
