import QueryTemplate.Time.Window
namespace QueryTemplate.Time

variable {ms n m unit : Int} {step : Nat}

/-- A time rounded to a step: the multiple of the step that is nearest to it, and the later one of
two that are equally near. A step of zero leaves the time as it is. -/
def IsRounding (step : Nat) (ms n : Int) : Prop :=
  if step = 0 then n = ms
  else (1000 * step : Int) ∣ n ∧ ∀ m, (1000 * step : Int) ∣ m →
    (ms - n).natAbs ≤ (ms - m).natAbs ∧ ((ms - n).natAbs = (ms - m).natAbs → m ≤ n)

/-- A time rounded to a step, whatever its size. -/
def rounded (step : Nat) (ms : Int) : Int :=
  if step = 0 then ms else (ms + step * 500) / (step * 1000) * (step * 1000)

/-- Rounding moves a time by half a step at most, and not by a whole half downwards. -/
theorem rounded_near (hs : 0 < step) (ms : Int) :
    rounded step ms ≤ ms + step * 500 ∧ ms < rounded step ms + step * 500 := by
  have hunit : (0 : Int) < step * 1000 := by omega
  have hle := Int.ediv_mul_le (ms + step * 500) (Int.ne_of_gt hunit)
  have hlt := Int.lt_ediv_add_one_mul_self (ms + step * 500) hunit
  rw [Int.add_mul] at hlt
  rw [rounded, if_neg (Nat.ne_of_gt hs)]
  omega

theorem rounded_mono (step : Nat) {a b : Int} (h : a ≤ b) : rounded step a ≤ rounded step b := by
  rw [rounded, rounded]
  split
  · exact h
  · have hunit : (0 : Int) < step * 1000 := by omega
    refine Int.mul_le_mul_of_nonneg_right ?_ (Int.le_of_lt hunit)
    exact Int.ediv_le_ediv hunit (by omega)

theorem dvd_rounded (hs : 0 < step) (ms : Int) : (1000 * step : Int) ∣ rounded step ms := by
  rw [rounded, if_neg (Nat.ne_of_gt hs), Int.mul_comm (step : Int) 1000]
  exact Int.dvd_mul_left _ _

/-- A rounded time is a whole number of seconds. -/
theorem rounded_seconds (hs : 0 < step) (ms : Int) :
    rounded step ms / 1000 * 1000 = rounded step ms :=
  Int.ediv_mul_cancel (Int.dvd_trans (Int.dvd_mul_right _ _) (dvd_rounded hs ms))

/-- Two multiples of a unit are equal or a whole unit apart. -/
theorem multiple_gap (hn : unit ∣ n) (hm : unit ∣ m) (hlt : m < n) :
    m + unit ≤ n := by
  have hdvd : unit ∣ n - m := Int.dvd_sub hn hm
  have := Int.le_of_dvd (by omega) hdvd
  omega

theorem isRounding_rounded (step : Nat) (ms : Int) : IsRounding step ms (rounded step ms) := by
  rcases Nat.eq_zero_or_pos step with rfl | hs
  · rfl
  rw [IsRounding, if_neg (Nat.ne_of_gt hs)]
  have hdvd := dvd_rounded hs ms
  have hnear := rounded_near hs ms
  refine ⟨hdvd, fun m hm ↦ ?_⟩
  -- Another multiple is a whole step away, and the time at most half a step.
  rcases Int.lt_trichotomy m (rounded step ms) with h | rfl | h
  · have := multiple_gap hdvd hm h
    omega
  · exact ⟨Nat.le_refl _, fun _ ↦ Int.le_refl _⟩
  · have := multiple_gap hm hdvd h
    omega

/-- Every time has exactly one rounding. -/
theorem isRounding_iff : IsRounding step ms n ↔ n = rounded step ms := by
  refine ⟨fun h ↦ ?_, fun h ↦ h ▸ isRounding_rounded step ms⟩
  have hr := isRounding_rounded step ms
  rcases Nat.eq_zero_or_pos step with rfl | hs
  · exact h
  · rw [IsRounding, if_neg (Nat.ne_of_gt hs)] at h hr
    have := h.2 _ hr.1
    have := hr.2 _ h.1
    omega

end QueryTemplate.Time
