import QueryTemplate.Time.Duration
import QueryTemplate.Proofs.Token.Split
import Mathlib.Data.Nat.Digits.Defs
namespace QueryTemplate

/-- A run of digits is read as a number in base ten. -/
theorem Text.toNat_eq_ofDigits (s : Text) :
    Text.toNat s = Nat.ofDigits 10 (s.reverse.map fun c ↦ c.toNat - '0'.toNat) := by
  induction s using List.reverseRecOn with
  | nil => rfl
  | append_singleton s c ih =>
    rw [List.reverse_append, List.reverse_singleton, List.singleton_append, List.map_cons,
      Nat.ofDigits_cons, ← ih, Text.toNat, List.foldl_append, Nat.add_comm]
    rfl

namespace Time

open Width

/-- The units that a duration is given in. -/
inductive Scale
  | millisecond
  | second
  | minute
  | hour
  | day
  | week
  | month
  | year
  deriving DecidableEq, Repr

namespace Scale

def letters : Scale → Text
  | millisecond => "ms"
  | second => "s"
  | minute => "m"
  | hour => "h"
  | day => "d"
  | week => "w"
  | month => "M"
  | year => "y"

/-- The length in milliseconds. A month has 30 days and a year 365. -/
def millis : Scale → Nat
  | millisecond => 1
  | second => 1000
  | minute => 60000
  | hour => 3600000
  | day => 86400000
  | week => 7 * 86400000
  | month => 30 * 86400000
  | year => 365 * 86400000

end Scale

/-- The milliseconds `v` that a text stands for: digits of a number and the letters of a unit right
after them, or nothing at all. Neither the number nor the product may have more than 64 bits. -/
inductive Lasts : Text → Nat → Prop
  | empty : Lasts [] 0
  | count {digits : Text} {n : Nat} (u : Scale) (nonempty : digits ≠ [])
    (ascii : ∀ c ∈ digits, '0' ≤ c ∧ c ≤ '9')
    (value : n = Nat.ofDigits 10 (digits.reverse.map fun c ↦ c.toNat - '0'.toNat))
    (number : n < 2 ^ 64) (product : n * u.millis < 2 ^ 64) : Lasts (digits ++ u.letters) (n * u.millis)

variable {s w : Text} {m n r v : Nat}

theorem isDigit_iff {c : Char} : c.isDigit = true ↔ '0' ≤ c ∧ c ≤ '9' := by
  simp [Char.isDigit, Char.le_def]

theorem unsigned?_eq (n : Nat) : unsigned? n = if n < 2 ^ 64 then some n else none := rfl

theorem unsigned?_eq_some_iff : unsigned? n = some m ↔ m = n ∧ n < 2 ^ 64 := by
  rw [unsigned?_eq]
  split <;> simp_all [eq_comm]

/-- The table of units has the units and nothing else. -/
theorem lookup_units_iff : units.lookup w = some n ↔ ∃ u : Scale, u.letters = w ∧ u.millis = n := by
  constructor
  · intro h
    obtain ⟨l₁, l₂, e, -⟩ := List.lookup_eq_some_iff.1 h
    have hm : (w, n) ∈ units := by simp [e]
    have hall : ∀ p ∈ units, ∃ u : Scale, u.letters = p.1 ∧ u.millis = p.2 := by
      simp only [units, List.forall_mem_cons]
      exact ⟨⟨.millisecond, rfl, rfl⟩, ⟨.second, rfl, rfl⟩, ⟨.minute, rfl, rfl⟩, ⟨.hour, rfl, rfl⟩,
        ⟨.day, rfl, rfl⟩, ⟨.week, rfl, rfl⟩, ⟨.month, rfl, rfl⟩, ⟨.year, rfl, rfl⟩, nofun⟩
    exact hall _ hm
  · rintro ⟨u, rfl, rfl⟩
    cases u <;> rfl

theorem stops_letters (u : Scale) : Text.Stops Char.isDigit u.letters := by
  cases u <;> exact (Text.stops_cons _ _ _).2 rfl

/-- A number and a unit are read where they can be, and only there. -/
theorem readDuration?_eq_some_iff : readDuration? s = some v ↔ s ≠ [] ∧ Lasts s v := by
  constructor
  · intro h
    obtain ⟨_, hg, h⟩ := Option.bind_eq_some_iff.1 h
    obtain ⟨k, hk, h⟩ := Option.bind_eq_some_iff.1 h
    obtain ⟨n, hread, hscaled⟩ := Option.bind_eq_some_iff.1 h
    have hne : s.takeWhile Char.isDigit ≠ [] := by
      intro e
      simp [e] at hg
    obtain ⟨u, hu, rfl⟩ := lookup_units_iff.1 hk
    obtain ⟨rfl, hn⟩ := unsigned?_eq_some_iff.1 hread
    obtain ⟨rfl, hv⟩ := unsigned?_eq_some_iff.1 hscaled
    have hs : s.takeWhile Char.isDigit ++ u.letters = s := by rw [hu, List.takeWhile_append_dropWhile]
    have hl := Lasts.count u hne (fun c hc ↦ isDigit_iff.1 (Text.mem_takeWhile hc))
      (Text.toNat_eq_ofDigits _) hn hv
    rw [hs] at hl
    exact ⟨fun e ↦ hne (by rw [e]; rfl), hl⟩
  · rintro ⟨hne, h⟩
    cases h with
    | empty => exact absurd rfl hne
    | @count digits n u hd ha hn hfit hprod =>
      have hdigit : ∀ c ∈ digits, c.isDigit = true := fun c hc ↦ isDigit_iff.2 (ha c hc)
      rw [← Text.toNat_eq_ofDigits] at hn
      simp only [readDuration?, Text.takeWhile_append_stops hdigit (stops_letters u),
        Text.dropWhile_append_stops hdigit (stops_letters u), lookup_units_iff.2 ⟨u, rfl, rfl⟩, ← hn,
        unsigned?_eq_some_iff.2 ⟨rfl, hfit⟩, unsigned?_eq_some_iff.2 ⟨rfl, hprod⟩, Option.bind_eq_bind,
        Option.bind_some]
      rw [guard, if_pos hd]
      rfl

theorem Lasts.eq_zero (h : Lasts s v) (hs : s = []) : v = 0 := by
  cases h with
  | empty => rfl
  | count u hne => exact absurd (List.append_eq_nil_iff.1 hs).1 hne

theorem durationMs_eq_ok_iff : durationMs s = .ok v ↔ Lasts (Text.trim s) v := by
  rw [durationMs]
  split
  · rename_i he
    refine ⟨fun h ↦ ?_, fun h ↦ by rw [h.eq_zero he]⟩
    obtain rfl := Except.ok.inj h
    exact he ▸ .empty
  · rename_i hne
    have hread := readDuration?_eq_some_iff (s := Text.trim s) (v := v)
    rw [and_iff_right hne] at hread
    rw [← hread]
    cases readDuration? (Text.trim s) <;> simp

/-- The only error is about the duration, without the white space around it. -/
theorem durationMs_eq_error_iff {e : Error} :
    durationMs s = .error e ↔ (¬∃ v, Lasts (Text.trim s) v) ∧ e = .badDuration (Text.trim s) := by
  simp only [← durationMs_eq_ok_iff, durationMs]
  split
  · simp
  · cases readDuration? (Text.trim s) <;> simp [eq_comm]

theorem intervalMs_eq (s : Text) (f : Nat) : intervalMs s f = (durationMs s).bind fun v ↦
    if v * max f 1 < 2 ^ 64 then .ok (v * max f 1) else .error (.badDuration (Text.trim s)) := by
  rw [intervalMs]
  congr 1
  funext v
  rw [unsigned?_eq]
  by_cases h : v * max f 1 < 2 ^ 64
  · rw [if_pos h, if_pos h]
  · rw [if_neg h, if_neg h]

theorem intervalMs_eq_ok_iff {f : Nat} :
    intervalMs s f = .ok r ↔ ∃ v, Lasts (Text.trim s) v ∧ r = v * max f 1 ∧ r < 2 ^ 64 := by
  simp only [intervalMs_eq, ← durationMs_eq_ok_iff]
  cases durationMs s with
  | error => simp [Except.bind]
  | ok v =>
    simp only [Except.bind, Except.ok.injEq, exists_eq_left']
    split <;> grind

theorem intervalMs_eq_error_iff {f : Nat} {e : Error} : intervalMs s f = .error e ↔
    (¬∃ v, Lasts (Text.trim s) v ∧ v * max f 1 < 2 ^ 64) ∧ e = .badDuration (Text.trim s) := by
  simp only [intervalMs_eq, ← durationMs_eq_ok_iff]
  cases h : durationMs s with
  | error d =>
    obtain ⟨-, rfl⟩ := durationMs_eq_error_iff.1 h
    simp [Except.bind, eq_comm]
  | ok v =>
    simp only [Except.bind, Except.ok.injEq, exists_eq_left']
    split <;> simp_all [eq_comm]

/-- A duration as the rounding step is cut to whole seconds. -/
theorem roundSeconds_eq (hs : Text.trim s ≠ stepName) (n : Nat) :
    roundSeconds (some s) n = (durationMs s).map (· / 1000) := by
  have ht : Text.trim (Text.trim s) = Text.trim s := (solid_trim s).trim
  have hround : roundSeconds (some s) n = if Text.trim s = [] then .ok 0
      else if Text.trim s = stepName then .ok n else (durationMs (Text.trim s)).map (· / 1000) := rfl
  rw [hround, if_neg hs, durationMs, durationMs, ht]
  split <;> rfl

theorem roundSeconds_eq_ok_iff (hs : Text.trim s ≠ stepName) :
    roundSeconds (some s) n = .ok r ↔ ∃ v, Lasts (Text.trim s) v ∧ r = v / 1000 := by
  simp only [roundSeconds_eq hs, ← durationMs_eq_ok_iff]
  cases durationMs s <;> simp [Except.map, eq_comm]

/-- A duration is read exactly. It is what a text without the white space around it stands for, and an interval is
that many times the factor if it fits into 64 bits; all else is refused, with that text in the error. As a rounding
step it is cut to whole seconds. -/
theorem duration_exact (s : Text) :
    (∀ v, durationMs s = .ok v ↔ Lasts (Text.trim s) v) ∧
    (∀ e, durationMs s = .error e ↔ (¬∃ v, Lasts (Text.trim s) v) ∧ e = .badDuration (Text.trim s)) ∧
    (∀ f r, intervalMs s f = .ok r ↔ ∃ v, Lasts (Text.trim s) v ∧ r = v * max f 1 ∧ r < 2 ^ 64) ∧
    (∀ f e, intervalMs s f = .error e ↔
      (¬∃ v, Lasts (Text.trim s) v ∧ v * max f 1 < 2 ^ 64) ∧ e = .badDuration (Text.trim s)) ∧
    (Text.trim s ≠ stepName → ∀ n r, roundSeconds (some s) n = .ok r ↔
      ∃ v, Lasts (Text.trim s) v ∧ r = v / 1000) :=
  ⟨fun _ ↦ durationMs_eq_ok_iff, fun _ ↦ durationMs_eq_error_iff, fun _ _ ↦ intervalMs_eq_ok_iff,
    fun _ _ ↦ intervalMs_eq_error_iff, fun hs _ _ ↦ roundSeconds_eq_ok_iff hs⟩

/-- The greatest number of years that fits. -/
theorem duration_exact_years : Text.trim " 0584942417y\u00a0" ≠ stepName ∧
    durationMs " 0584942417y\u00a0" = .ok 18446744062512000000 ∧
    roundSeconds (some " 0584942417y\u00a0") 5 = .ok 18446744062512000 ∧
    intervalMs " 0584942417y\u00a0" 2 = .error (.badDuration "0584942417y") := by
  have hs : Text.trim " 0584942417y\u00a0" ≠ stepName := by decide
  have hvalue : 584942417 = Nat.ofDigits 10 ("0584942417".toList.reverse.map fun c ↦ c.toNat - '0'.toNat) := by decide
  have hl : Lasts (Text.trim " 0584942417y\u00a0") 18446744062512000000 :=
    .count .year (by decide) (by decide) hvalue (by decide) (by decide)
  obtain ⟨hd, -, -, hi, hr⟩ := duration_exact " 0584942417y\u00a0"
  refine ⟨hs, (hd _).2 hl, (hr hs _ _).2 ⟨_, hl, rfl⟩, (hi _ _).2 ⟨?_, rfl⟩⟩
  rintro ⟨v, hv, hlt⟩
  obtain rfl := Except.ok.inj (((hd _).2 hl).symm.trans ((hd v).2 hv))
  omega

end Time
end QueryTemplate
