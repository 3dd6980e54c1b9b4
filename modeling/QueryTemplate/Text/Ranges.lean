namespace QueryTemplate.Text

/-- Whether the code point of `c` lies in one of the closed ranges `rs`. -/
def inRanges (rs : List (Nat × Nat)) (c : Char) : Bool :=
  rs.any fun r ↦ r.1 ≤ c.toNat && c.toNat ≤ r.2

theorem inRanges_iff {rs : List (Nat × Nat)} {c : Char} :
    inRanges rs c = true ↔ ∃ r ∈ rs, r.1 ≤ c.toNat ∧ c.toNat ≤ r.2 := by
  simp [inRanges]

end QueryTemplate.Text
