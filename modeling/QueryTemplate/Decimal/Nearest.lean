import QueryTemplate.Decimal.Shortest
import QueryTemplate.Text.Basic

namespace QueryTemplate.Decimal

/-- The whole number nearest to `n / d`, the even one of two. -/
def roundDiv (n d : Nat) : Nat :=
  let r := n / d
  if 2 * (n % d) < d then r
  else if d < 2 * (n % d) then r + 1
  else r + r % 2

/-- The position of the leading binary digit of `n / d`. -/
def binaryExponent (n d : Nat) : Int :=
  let e : Int := n.log2 - d.log2
  if n * Nat.pow 2 (-e).toNat < d * Nat.pow 2 e.toNat then e - 1 else e

/-- The bits of positive infinity. -/
def infiniteBits : Nat := 2047 * fractionLimit

/-- The bits of the number of 64 bits nearest to `n / d`. -/
def ratioBits (n d : Nat) : Nat :=
  if n = 0 then 0
  else
    let q := max (binaryExponent n d - 52) (-1074)
    let m := roundDiv (n * Nat.pow 2 (-q).toNat) (d * Nat.pow 2 q.toNat)
    min ((q + 1074).toNat * fractionLimit + m) infiniteBits

/-- The bits of the number of 64 bits nearest to `m * 10 ^ k`. Far out of range no power of ten is
computed. -/
def nearestBits (m : Nat) (k : Int) : Nat :=
  let size := (Text.ofNat m).length + k
  if m = 0 || size < -330 then 0
  else if 310 < size then infiniteBits
  else ratioBits (m * Nat.pow 10 k.toNat) (Nat.pow 10 (-k).toNat)

/-- The number of 64 bits nearest to `m * 10 ^ k`, below zero if `negative`. -/
def nearest (negative : Bool) (m : Nat) (k : Int) : Float :=
  .ofBits (nearestBits m k + if negative then signBit else 0).toUInt64

def ofInt (n : Int) : Float := nearest (n < 0) n.natAbs 0

end QueryTemplate.Decimal
