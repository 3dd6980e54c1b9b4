import QueryTemplate.Proofs.Time.Window
namespace QueryTemplate.Time

open Width

variable {ms n m lower upper : Int} {step : Nat} {startMs stopMs : Int}

/-- How far a window that is rounded to a step reaches beyond the rounded range, in seconds. -/
def margin (step : Nat) : Int := max (2 * step - 1) 0

/-- The window around two rounded times in numbers without a limit. -/
def exactWindow (step : Nat) (lower upper : Int) : Window where
  start := lower / 1000 - margin step
  stop := upper / 1000 + margin step
  startMs := lower - margin step * 1000
  stopMs := upper + margin step * 1000

/-- Whether a number fits into 64 bits with a sign. -/
def Fits (n : Int) : Prop := -signedLimit ≤ n ∧ n < signedLimit

instance : DecidablePred Fits := fun _ ↦ inferInstanceAs (Decidable (_ ∧ _))

/-- Whether all bounds of a window fit into 64 bits with a sign. -/
def Window.Fits (w : Window) : Prop :=
  Time.Fits w.start ∧ Time.Fits w.stop ∧ Time.Fits w.startMs ∧ Time.Fits w.stopMs

instance : DecidablePred Window.Fits := fun _ ↦ inferInstanceAs (Decidable (_ ∧ _ ∧ _ ∧ _))

/-- A limit in milliseconds that no time of the calendar reaches. -/
def calendarLimit : Nat := 8400000000000000

theorem signed?_of_fits (h : Fits n) : signed? n = some n := if_pos h

theorem fits_of_signed? (h : signed? n = some m) : Fits n := by
  rw [signed?] at h
  split at h
  · assumption
  · cases h

theorem margin_eq (step : Nat) : ((2 * step - 1 : Nat) : Int) = margin step := by
  rw [margin]
  omega

/-- Nothing overflows while a time is rounded, unless the step in milliseconds does. -/
theorem roundMs?_of_fits (hms : ms.natAbs < calendarLimit) (hs : Fits (step * 1000)) :
    roundMs? ms step = some (rounded step ms) := by
  rcases Nat.eq_zero_or_pos step with rfl | hpos
  · rfl
  have hnear := rounded_near hpos ms
  rw [rounded, if_neg (Nat.ne_of_gt hpos)] at hnear
  simp only [Fits, signedLimit, calendarLimit] at hs hms
  have hshifted : Fits (ms + step * 500) := by
    simp only [Fits, signedLimit]
    omega
  have hrounded : Fits ((ms + step * 500) / (step * 1000) * (step * 1000)) := by
    simp only [Fits, signedLimit]
    omega
  rw [roundMs?, if_neg (Nat.ne_of_gt hpos), signed?_of_fits hs, Option.bind_eq_bind,
    Option.bind_some, show (step * 1000 : Int) / 2 = step * 500 by omega,
    signed?_of_fits hshifted, Option.bind_some, signed?_of_fits hrounded, rounded,
    if_neg (Nat.ne_of_gt hpos)]

/-- Where the margin can be computed, a window is refused only for a bound of its own. -/
theorem window?_of_margin (hl : roundMs? startMs step = some lower)
    (hu : roundMs? stopMs step = some upper) (hm : Fits (margin step * 1000)) :
    window? startMs stopMs step =
      if (exactWindow step lower upper).Fits then some (exactWindow step lower upper) else none := by
  have hexact : window? startMs stopMs step = do
      let start ← signed? (exactWindow step lower upper).start
      let stop ← signed? (exactWindow step lower upper).stop
      let startMs ← signed? (exactWindow step lower upper).startMs
      let stopMs ← signed? (exactWindow step lower upper).stopMs
      return ⟨start, stop, startMs, stopMs⟩ := by
    simp only [window?, hl, hu, margin_eq, Option.bind_eq_bind, Option.bind_some,
      signed?_of_fits hm]
    rfl
  rw [hexact]
  split
  · rename_i h
    rw [signed?_of_fits h.1, signed?_of_fits h.2.1, signed?_of_fits h.2.2.1,
      signed?_of_fits h.2.2.2]
    rfl
  · rename_i h
    refine Option.eq_none_iff_forall_ne_some.2 fun w hw ↦ h ?_
    obtain ⟨_, h₁, hw⟩ := Option.bind_eq_some_iff.1 hw
    obtain ⟨_, h₂, hw⟩ := Option.bind_eq_some_iff.1 hw
    obtain ⟨_, h₃, hw⟩ := Option.bind_eq_some_iff.1 hw
    obtain ⟨_, h₄, -⟩ := Option.bind_eq_some_iff.1 hw
    exact ⟨fits_of_signed? h₁, fits_of_signed? h₂, fits_of_signed? h₃, fits_of_signed? h₄⟩

theorem window?_of_not_margin (hm : ¬Fits (margin step * 1000)) :
    window? startMs stopMs step = none := by
  refine Option.eq_none_iff_forall_ne_some.2 fun w hw ↦ hm ?_
  obtain ⟨_, -, hw⟩ := Option.bind_eq_some_iff.1 hw
  obtain ⟨_, -, hw⟩ := Option.bind_eq_some_iff.1 hw
  obtain ⟨_, h, -⟩ := Option.bind_eq_some_iff.1 hw
  exact margin_eq step ▸ fits_of_signed? h

/-- A step whose margin overflows is so long that the start of 1970 is the rounding of every time of
the calendar. From there the margin leads out of the range of bounds. -/
theorem not_fits_of_margin (hms : ms.natAbs < calendarLimit) (hm : ¬Fits (margin step * 1000)) :
    ¬(exactWindow step (rounded step ms) upper).Fits := by
  simp only [Fits, signedLimit, margin, calendarLimit] at hm hms
  have hpos : 0 < step := by omega
  have hzero : rounded step ms = 0 := by
    refine (isRounding_iff.1 ?_).symm
    rw [IsRounding, if_neg (Nat.ne_of_gt hpos)]
    refine ⟨Int.dvd_zero _, fun m hm' ↦ ?_⟩
    rcases Int.lt_trichotomy m 0 with h | rfl | h
    · have := multiple_gap (Int.dvd_zero _) hm' h
      omega
    · exact ⟨Nat.le_refl _, fun _ ↦ Int.le_refl _⟩
    · have := multiple_gap hm' (Int.dvd_zero _) h
      omega
  rw [hzero]
  rintro ⟨-, -, h, -⟩
  simp only [Fits, signedLimit, exactWindow, margin] at h
  omega

/-- A window is exact or it is refused: whatever the step, it has the bounds that numbers without a
limit give, unless one of these does not fit. -/
theorem window_exact {r : Range} (hstart : r.start.millis.natAbs < calendarLimit)
    (hstop : r.stop.millis.natAbs < calendarLimit) (step : Nat) :
    ∃ lower upper : Int, (∀ n, IsRounding step r.start.millis n ↔ n = lower) ∧
      (∀ n, IsRounding step r.stop.millis n ↔ n = upper) ∧
      r.window step =
        if (exactWindow step lower upper).Fits then .ok (exactWindow step lower upper)
        else .error (.badDuration (Text.ofNat step ++ "s")) := by
  refine ⟨rounded step r.start.millis, rounded step r.stop.millis, fun _ ↦ isRounding_iff,
    fun _ ↦ isRounding_iff, ?_⟩
  have hw : window? r.start.millis r.stop.millis step =
      if (exactWindow step (rounded step r.start.millis) (rounded step r.stop.millis)).Fits then
        some (exactWindow step (rounded step r.start.millis) (rounded step r.stop.millis))
      else none := by
    by_cases hm : Fits (margin step * 1000)
    · have hs : Fits (step * 1000) := by
        simp only [Fits, signedLimit, margin] at hm ⊢
        omega
      exact window?_of_margin (roundMs?_of_fits hstart hs) (roundMs?_of_fits hstop hs) hm
    · rw [if_neg (not_fits_of_margin hstart hm), window?_of_not_margin hm]
  rw [Range.window, hw]
  by_cases h : (exactWindow step (rounded step r.start.millis) (rounded step r.stop.millis)).Fits
  · rw [if_pos h, if_pos h]
  · rw [if_neg h, if_neg h]

/-- The longest step that a window around the start of 1970 takes. -/
theorem window_exact_longest :
    (⟨-31, 500000000⟩ : Instant).millis.natAbs < calendarLimit ∧
      (⟨53, 7⟩ : Instant).millis.natAbs < calendarLimit ∧
      (⟨⟨-31, 500000000⟩, ⟨53, 7⟩, false⟩ : Range).window 4611686018427388 =
        .ok ⟨-9223372036854775, 9223372036854775, -9223372036854775000, 9223372036854775000⟩ ∧
      (⟨⟨-31, 500000000⟩, ⟨53, 7⟩, false⟩ : Range).window 4611686018427389 =
        .error (.badDuration "4611686018427389s") := by
  have hstart : (⟨-31, 500000000⟩ : Instant).millis.natAbs < calendarLimit := by decide
  have hstop : (⟨53, 7⟩ : Instant).millis.natAbs < calendarLimit := by decide
  have hrounding : ∀ step ∈ [4611686018427388, 4611686018427389],
      IsRounding step (⟨-31, 500000000⟩ : Instant).millis 0 ∧
        IsRounding step (⟨53, 7⟩ : Instant).millis 0 := by
    simp only [isRounding_iff]
    decide
  obtain ⟨lower, upper, hl, hu, hw⟩ :=
    window_exact (r := ⟨⟨-31, 500000000⟩, ⟨53, 7⟩, false⟩) hstart hstop 4611686018427388
  obtain ⟨lower', upper', hl', hu', hw'⟩ :=
    window_exact (r := ⟨⟨-31, 500000000⟩, ⟨53, 7⟩, false⟩) hstart hstop 4611686018427389
  obtain rfl := (hl 0).1 (hrounding _ (by decide)).1
  obtain rfl := (hu 0).1 (hrounding _ (by decide)).2
  obtain rfl := (hl' 0).1 (hrounding _ (by decide)).1
  obtain rfl := (hu' 0).1 (hrounding _ (by decide)).2
  exact ⟨hstart, hstop, hw.trans (by rfl), hw'.trans (by rfl)⟩

end QueryTemplate.Time
