namespace QueryTemplate.Width

/-- `2 ^ 64`. -/
def unsignedLimit : Nat := 18446744073709551616

/-- `2 ^ 63`. -/
def signedLimit : Int := 9223372036854775808

/-- A number if it fits into 64 bits. -/
def unsigned? (n : Nat) : Option Nat := if n < unsignedLimit then some n else none

/-- A number if it fits into 64 bits with a sign. -/
def signed? (n : Int) : Option Int :=
  if -signedLimit ≤ n ∧ n < signedLimit then some n else none

end QueryTemplate.Width
