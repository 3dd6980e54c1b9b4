import QueryTemplate.Decimal.Shortest
import QueryTemplate.Text.Basic

namespace QueryTemplate.Decimal

/-- `d * 10 ^ k` without an exponent. -/
def positional (d : Nat) (k : Int) : Text :=
  let s := Text.ofNat d
  if 0 ≤ k then s ++ List.replicate k.toNat '0'
  else
    let n := (-k).toNat
    let s := List.replicate (n + 1 - s.length) '0' ++ s
    s.take (s.length - n) ++ '.' :: s.drop (s.length - n)

def signed (negative : Bool) (s : Text) : Text := if negative then '-' :: s else s

def Binary.text : Binary → Text
  | nan => "NaN"
  | infinite negative => signed negative "inf"
  | finite negative m q =>
    signed negative (if m = 0 then "0" else
      let (d, k) := shortest m q
      positional d k)

/-- The shortest text that reads back as the number, never with an exponent. -/
def text (x : Float) : Text := (Binary.ofFloat x).text

/-- The whole number `m * 2 ^ q`, if it is one. -/
def whole? (m : Nat) (q : Int) : Option Nat :=
  if 0 ≤ q then some (m * Nat.pow 2 q.toNat)
  else if m % Nat.pow 2 (-q).toNat = 0 then some (m / Nat.pow 2 (-q).toNat)
  else none

/-- `10 ^ 15`. -/
def integerLimit : Nat := 1000000000000000

/-- A number as a literal: whole numbers below the limit are integers, so that zero has no sign. -/
def literal (x : Float) : Text :=
  match Binary.ofFloat x with
  | .finite negative m q =>
    match whole? m q with
    | some n => if n < integerLimit then Text.ofInt (if negative then -n else n) else text x
    | none => text x
  | _ => text x

end QueryTemplate.Decimal
