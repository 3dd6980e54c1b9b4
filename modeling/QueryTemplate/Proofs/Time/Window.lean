import QueryTemplate.Proofs.Time.Rounding
namespace QueryTemplate.Time

open Width

variable {ms n m : Int} {step : Nat} {startMs stopMs : Int} {w : Window}

theorem eq_of_signed? (h : signed? n = some m) : m = n := by
  rw [signed?] at h
  split at h
  · exact (Option.some.inj h).symm
  · cases h

theorem roundMs?_eq_some (hs : 0 < step) (h : roundMs? ms step = some n) : n = rounded step ms := by
  rw [roundMs?, if_neg (Nat.ne_of_gt hs)] at h
  obtain ⟨unit, hu, h⟩ := Option.bind_eq_some_iff.1 h
  obtain ⟨shifted, hm, h⟩ := Option.bind_eq_some_iff.1 h
  obtain rfl := eq_of_signed? hu
  obtain rfl := eq_of_signed? hm
  rw [eq_of_signed? h, rounded, if_neg (Nat.ne_of_gt hs),
    show (step * 1000 : Int) / 2 = step * 500 by omega]

theorem roundMs?_near (hs : 0 < step) (h : roundMs? ms step = some n) :
    n ≤ ms + step * 500 ∧ ms < n + step * 500 :=
  roundMs?_eq_some hs h ▸ rounded_near hs ms

theorem roundMs?_mono (hs : 0 < step) (hle : startMs ≤ stopMs) (h : roundMs? startMs step = some m)
    (h' : roundMs? stopMs step = some n) : m ≤ n := by
  rw [roundMs?_eq_some hs h, roundMs?_eq_some hs h']
  exact rounded_mono step hle

theorem roundMs?_seconds (hs : 0 < step) (h : roundMs? ms step = some n) : n / 1000 * 1000 = n :=
  roundMs?_eq_some hs h ▸ rounded_seconds hs ms

theorem window?_eq_some (h : window? startMs stopMs step = some w) :
    ∃ lower upper margin : Int, roundMs? startMs step = some lower ∧
      roundMs? stopMs step = some upper ∧ margin = (2 * step - 1 : Nat) ∧
      w = ⟨lower / 1000 - margin, upper / 1000 + margin, lower - margin * 1000,
          upper + margin * 1000⟩ := by
  obtain ⟨lower, hl, h⟩ := Option.bind_eq_some_iff.1 h
  obtain ⟨upper, hu, h⟩ := Option.bind_eq_some_iff.1 h
  obtain ⟨marginMs, hm, h⟩ := Option.bind_eq_some_iff.1 h
  obtain ⟨start, h₁, h⟩ := Option.bind_eq_some_iff.1 h
  obtain ⟨stop, h₂, h⟩ := Option.bind_eq_some_iff.1 h
  obtain ⟨sms, h₃, h⟩ := Option.bind_eq_some_iff.1 h
  obtain ⟨ems, h₄, h⟩ := Option.bind_eq_some_iff.1 h
  obtain rfl := Option.some.inj h
  refine ⟨lower, upper, _, hl, hu, rfl, ?_⟩
  rw [eq_of_signed? hm] at h₃ h₄
  rw [eq_of_signed? h₁, eq_of_signed? h₂, eq_of_signed? h₃, eq_of_signed? h₄]

/-- A window that is rounded to a step holds the whole range, with seconds and milliseconds in
agreement, and reaches at most two and a half steps less a second beyond it. -/
theorem window_contains_range {r : Range} (hs : 1 ≤ step) (hr : r.start.millis ≤ r.stop.millis)
    (h : r.window step = .ok w) :
    w.start * 1000 = w.startMs ∧ w.stop * 1000 = w.stopMs ∧
      w.startMs ≤ r.start.millis ∧ r.stop.millis ≤ w.stopMs ∧ w.start ≤ w.stop ∧
      r.start.millis - w.startMs ≤ 2500 * step - 1000 ∧
      w.stopMs - r.stop.millis ≤ 2500 * step - 1000 := by
  rw [Range.window] at h
  split at h
  · obtain rfl := Except.ok.inj h
    obtain ⟨lower, upper, margin, hl, hu, hm, rfl⟩ := window?_eq_some ‹_›
    have hlower := roundMs?_near hs hl
    have hupper := roundMs?_near hs hu
    have hle := roundMs?_mono hs hr hl hu
    have hls := roundMs?_seconds hs hl
    have hus := roundMs?_seconds hs hu
    have hmargin : margin = 2 * step - 1 := by omega
    refine ⟨?_, ?_, ?_, ?_, ?_, ?_, ?_⟩ <;> dsimp only <;> omega
  · cases h

/-- A range that starts before 1970, rounded to the minute. -/
theorem window_contains_range_minute :
    (⟨⟨-31, 500000000⟩, ⟨53, 7⟩, false⟩ : Range).window 60 = .ok ⟨-179, 179, -179000, 179000⟩ ∧
      (-179 : Int) * 1000 = -179000 ∧ (-179000 : Int) ≤ (⟨-31, 500000000⟩ : Instant).millis ∧
      (⟨53, 7⟩ : Instant).millis ≤ 179000 := by
  have hr : (⟨-31, 500000000⟩ : Instant).millis ≤ (⟨53, 7⟩ : Instant).millis := by decide
  have hw : (⟨⟨-31, 500000000⟩, ⟨53, 7⟩, false⟩ : Range).window 60 =
      .ok ⟨-179, 179, -179000, 179000⟩ := rfl
  obtain ⟨h₁, -, h₂, h₃, -⟩ := window_contains_range (by decide) hr hw
  exact ⟨hw, h₁, h₂, h₃⟩

end QueryTemplate.Time
