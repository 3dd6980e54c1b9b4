import QueryTemplate.Proofs.Token.Start
namespace QueryTemplate
namespace Recognizer

/-- A recognizer reads no further than the characters of the class `p` and the one after them. -/
structure Within (p : Char → Bool) (a : Recognizer) : Prop extends Splits a where
  map : ∀ {u v : Text}, (∀ c ∈ u, p c = true) → Text.Stops p v → a (u ++ v) = (a u).map (· ++ v)

variable {p q : Char → Bool} {a b : Recognizer}

theorem Within.seq (ha : Within p a) (hb : Within p b) : Within p (a.seq b) where
  toSplits := ha.toSplits.seq hb.toSplits
  map {u v} hu hv := by
    simp only [Recognizer.seq, ha.map hu hv]
    cases e : a u with
    | none => rfl
    | some w =>
      have hw : ∀ c ∈ w, p c = true := fun c hc ↦ hu c ((ha.suffix e).mem hc)
      exact hb.map hw hv

theorem Within.oneOf {rs : List Recognizer} (h : ∀ r ∈ rs, Within p r) : Within p (oneOf rs) where
  suffix e := by
    obtain ⟨r, hr, hs⟩ := List.exists_of_findSome?_eq_some e
    exact (h r hr).suffix hs
  map {u v} hu hv := by
    simp only [Recognizer.oneOf]
    induction rs with
    | nil => rfl
    | cons r rs ih =>
      have ih := ih fun r' hr' ↦ h r' (List.mem_cons_of_mem _ hr')
      rw [List.findSome?_cons, List.findSome?_cons, (h r List.mem_cons_self).map hu hv, ih]
      cases r u <;> rfl

theorem Within.maybe (h : Within p a) : Within p (maybe a) where
  toSplits := .maybe h.toSplits
  map {u v} hu hv := by
    simp only [Recognizer.maybe, h.map hu hv]
    cases a u <;> rfl

theorem Within.one (h : ∀ c, q c = true → p c = true) : Within p (one q) where
  toSplits := (Consumes.one q).toSplits
  map {u v} hu hv := by
    cases u with
    | cons c u => by_cases hc : q c = true <;> simp [Recognizer.one, hc]
    | nil =>
      cases v with
      | nil => rfl
      | cons c v =>
        have hc : q c ≠ true := fun hc ↦ by simp [h c hc] at hv
        simp [Recognizer.one, hc]

theorem Within.many (h : ∀ c, q c = true → p c = true) : Within p (many q) where
  toSplits := .many q
  map {u v} hu hv := by
    have hq : Text.Stops q v := fun c hc ↦ by
      cases e : q c with
      | false => rfl
      | true => rw [← hv c hc, h c e]
    induction u with
    | nil => simp [Recognizer.many, Text.dropWhile_of_stops hq]
    | cons c u ih =>
      have ih := ih fun d hd ↦ hu d (List.mem_cons_of_mem _ hd)
      by_cases hc : q c = true <;> simp_all [Recognizer.many]

theorem Within.word {w : Text} (h : ∀ c ∈ w, ∀ d : Char, d.toLower = c → p d = true) :
    Within p (word w) where
  toSplits := .word w
  map {u v} hu hv := by
    induction w generalizing u with
    | nil => rfl
    | cons c w ih =>
      have ih := @ih fun e he ↦ h e (List.mem_cons_of_mem _ he)
      cases u with
      | cons d u =>
        simp only [List.cons_append, Recognizer.word]
        split
        · exact ih fun e he ↦ hu e (List.mem_cons_of_mem _ he)
        · rfl
      | nil =>
        cases v with
        | nil => rfl
        | cons d v =>
          have hd : d.toLower ≠ c := fun e ↦ by simp [h c List.mem_cons_self d e] at hv
          simp [Recognizer.word, hd]

theorem Within.exactly {w : Text} (h : ∀ c ∈ w, p c = true) : Within p (exactly w) where
  suffix e := Text.afterPrefix?_eq_some_iff.1 e ▸ List.suffix_append _ _
  map {u v} hu hv := by
    simp only [Recognizer.exactly]
    induction w generalizing u with
    | nil => rfl
    | cons c w ih =>
      have ih := @ih fun e he ↦ h e (List.mem_cons_of_mem _ he)
      cases u with
      | cons d u =>
        simp only [List.cons_append, Text.afterPrefix?]
        split
        · exact ih fun e he ↦ hu e (List.mem_cons_of_mem _ he)
        · rfl
      | nil =>
        cases v with
        | nil => rfl
        | cons d v =>
          have hd : c ≠ d := fun e ↦ by simp [← e, h c List.mem_cons_self] at hv
          simp [Text.afterPrefix?, hd]

end Recognizer

namespace Grammar

open Recognizer

/-- The characters of numbers. -/
def isNumeric (c : Char) : Bool := isHexDigit c || c = 'x' || c = '.' || c = '+' || c = '-'

theorem isNumeric_of_isDigit {c : Char} (h : c.isDigit = true) : isNumeric c = true := by
  simp [isNumeric, isHexDigit, h]

theorem toLower_eq_e {c : Char} : c.toLower = 'e' ↔ c = 'e' ∨ c = 'E' := by
  constructor
  · intro h
    rcases Text.toLower_cases c with ⟨-, hv⟩ | ⟨-, e⟩
    · refine .inr (Char.ext (UInt32.toNat_inj.1 ?_))
      rw [h, show ('e').val.toNat = 101 by decide] at hv
      rw [show ('E').val.toNat = 69 by decide]
      omega
    · exact .inl (e ▸ h)
  · rintro (rfl | rfl) <;> rfl

theorem within_number : Within isNumeric number := by
  have hd : Within isNumeric digits :=
    (Within.one fun c ↦ isNumeric_of_isDigit).seq (.many fun c ↦ isNumeric_of_isDigit)
  have hh : Within isNumeric (many1 isHexDigit) :=
    (Within.one fun c h ↦ by simp [isNumeric, h]).seq (.many fun c h ↦ by simp [isNumeric, h])
  have he : Within isNumeric exponent := by
    refine (Within.word fun c hc d hd ↦ ?_).seq ((Within.one fun c h ↦ ?_).maybe.seq hd)
    · obtain rfl : c = 'e' := by simpa using hc
      rcases toLower_eq_e.1 hd with rfl | rfl <;> rfl
    · simp only [Bool.or_eq_true, decide_eq_true_eq] at h
      rcases h with rfl | rfl <;> rfl
  have hp : Within isNumeric (exactly ".") := .exactly (by decide)
  refine .oneOf fun r hr ↦ ?_
  simp only [List.mem_cons, List.not_mem_nil, or_false] at hr
  rcases hr with rfl | rfl | rfl | rfl | rfl
  · exact (Within.exactly (by decide)).seq hh
  · exact hd.seq (hp.seq ((Within.many fun c ↦ isNumeric_of_isDigit).seq he.maybe))
  · exact hp.seq (hd.seq he.maybe)
  · exact hd.seq he
  · exact hd

theorem many1_eq_some_iff {p : Char → Bool} {s r : Text} : many1 p s = some r ↔
    ∃ d : Text, d ≠ [] ∧ (∀ c ∈ d, p c = true) ∧ Text.Stops p r ∧ s = d ++ r := by
  cases s with
  | nil =>
    simp only [many1, seq, one, Option.bind_none]
    refine ⟨(fun h ↦ by cases h), ?_⟩
    rintro ⟨d, hd, -, -, e⟩
    exact absurd (List.append_eq_nil_iff.1 e.symm).1 hd
  | cons c s =>
    by_cases hc : p c = true
    · have e : many1 p (c :: s) = some (s.dropWhile p) := by simp [many1, seq, one, many, hc]
      rw [e, Option.some.injEq]
      constructor
      · rintro rfl
        refine ⟨c :: s.takeWhile p, by simp, ?_, Text.stops_dropWhile _ _, ?_⟩
        · exact List.forall_mem_cons.2 ⟨hc, fun d ↦ Text.mem_takeWhile⟩
        · rw [List.cons_append, List.takeWhile_append_dropWhile]
      · rintro ⟨d, hd, hall, hr, h⟩
        rw [← Text.dropWhile_append_stops hall hr, ← h, List.dropWhile_cons_of_pos hc]
    · have e : many1 p (c :: s) = none := by simp [many1, seq, one, hc]
      rw [e]
      refine ⟨(fun h ↦ by cases h), ?_⟩
      rintro ⟨d, hd, hall, -, h⟩
      cases d with
      | nil => exact (hd rfl).elim
      | cons x d =>
        obtain ⟨rfl, -⟩ := List.cons.inj h
        exact (hc (hall _ List.mem_cons_self)).elim

theorem many1_eq_none_iff {p : Char → Bool} {s : Text} : many1 p s = none ↔ Text.Stops p s := by
  cases s with
  | nil => simp [many1, seq, one]
  | cons c s => by_cases hc : p c = true <;> simp [many1, seq, one, many, hc]

theorem stops_of_append {p : Char → Bool} {u r : Text} (h : Text.Stops p (u ++ r)) :
    Text.Stops p u := by
  cases u with
  | nil => exact Text.stops_nil p
  | cons c u => exact h

theorem many1_of_append {p : Char → Bool} {u x r : Text}
    (h : many1 p (u ++ (x ++ r)) = some (x ++ r)) :
    many1 p (u ++ x) = some x := by
  obtain ⟨d, hd, hp, hs, e⟩ := many1_eq_some_iff.1 h
  obtain rfl := List.append_cancel_right e
  exact many1_eq_some_iff.2 ⟨u, hd, hp, stops_of_append hs, rfl⟩

theorem digits_eq_some_iff {s r : Text} : digits s = some r ↔
    ∃ d : Text, d ≠ [] ∧ (∀ c ∈ d, c.isDigit = true) ∧ Text.Stops Char.isDigit r ∧ s = d ++ r :=
  many1_eq_some_iff

theorem digits_append {d r : Text} (hd : d ≠ []) (h : ∀ c ∈ d, c.isDigit = true)
    (hr : Text.Stops Char.isDigit r) : digits (d ++ r) = some r :=
  digits_eq_some_iff.2 ⟨d, hd, h, hr, rfl⟩

theorem exponent_eq_some_iff {s r : Text} : exponent s = some r ↔
    ∃ (c : Char) (g d : Text), (c = 'e' ∨ c = 'E') ∧ (g = [] ∨ g = ['+'] ∨ g = ['-']) ∧
      digits (d ++ r) = some r ∧ s = c :: (g ++ (d ++ r)) := by
  have hsign : ∀ {x y : Text}, (maybe (one fun c ↦ c = '+' || c = '-')) x = some y → 
      ∃ g : Text, (g = [] ∨ g = ['+'] ∨ g = ['-']) ∧ x = g ++ y := by
    intro x y h
    cases x with
    | nil => exact ⟨[], .inl rfl, by simpa [maybe, one] using h⟩
    | cons c x =>
      by_cases hc : (c = '+' || c = '-') = true
      · refine ⟨[c], ?_, by simpa [maybe, one, hc] using h⟩
        simpa using hc
      · exact ⟨[], .inl rfl, by simpa [maybe, one, hc] using h⟩
  constructor
  · intro h
    obtain ⟨s₁, h₁, h₂⟩ := Option.bind_eq_some_iff.1 h
    obtain ⟨p, rfl, hlow⟩ := word_eq_some_iff.1 h₁
    obtain ⟨s₂, h₃, h₄⟩ := Option.bind_eq_some_iff.1 h₂
    obtain ⟨g, hg, rfl⟩ := hsign h₃
    obtain ⟨d, -, -, -, rfl⟩ := digits_eq_some_iff.1 h₄
    cases p with
    | nil => cases hlow
    | cons c p =>
      obtain ⟨hc, hp⟩ := List.cons.inj hlow
      obtain rfl : p = [] := by simpa [Text.lower] using hp
      exact ⟨c, g, d, toLower_eq_e.1 hc, hg, h₄, rfl⟩
  · rintro ⟨c, g, d, hc, hg, hd, rfl⟩
    obtain ⟨d', hne, hdig, -, e⟩ := digits_eq_some_iff.1 hd
    obtain rfl := List.append_cancel_right e
    obtain ⟨x, d, rfl⟩ := List.exists_cons_of_ne_nil hne
    have hx : (x = '+' || x = '-') = false := by
      have hx := hdig x List.mem_cons_self
      cases e : (x = '+' || x = '-' : Bool) with
      | false => rfl
      | true =>
        simp only [Bool.or_eq_true, decide_eq_true_eq] at e
        rcases e with rfl | rfl <;> cases hx
    have hw : word "e" (c :: (g ++ (x :: d ++ r))) = some (g ++ (x :: d ++ r)) :=
      word_eq_some_iff.2 ⟨[c], rfl, by simpa using toLower_eq_e.2 hc⟩
    have hm : (maybe (one fun c ↦ c = '+' || c = '-')) (g ++ (x :: d ++ r)) =
        some (x :: d ++ r) := by
      rcases hg with rfl | rfl | rfl
      · simp [maybe, one, hx]
      · rfl
      · rfl
    rw [exponent, seq, hw, Option.bind_some, seq, hm, Option.bind_some, hd]

theorem exponent_of_append {u x r : Text} (h : exponent (u ++ (x ++ r)) = some (x ++ r)) :
    exponent (u ++ x) = some x ∧ Text.Stops Char.isDigit (u ++ x) ∧
      Text.Stops (· = '.') (u ++ x) := by
  obtain ⟨c, g, d, hc, hg, hd, e⟩ := exponent_eq_some_iff.1 h
  obtain ⟨d', hne, hdig, hs, e'⟩ := digits_eq_some_iff.1 hd
  obtain rfl := List.append_cancel_right e'
  obtain rfl : u = c :: (g ++ d) := by
    refine (List.append_left_inj (x ++ r)).1 (e.trans ?_)
    simp
  refine ⟨exponent_eq_some_iff.2
    ⟨c, g, d, hc, hg, digits_append hne hdig (stops_of_append hs), by simp⟩, ?_, ?_⟩
  all_goals rcases hc with rfl | rfl <;> simp

/-- Where a text has no exponent, its start has none. -/
theorem exponent_none_of_append {x r : Text} (h : exponent (x ++ r) = none) :
    exponent x = none := by
  cases e : exponent x with
  | none => rfl
  | some w =>
    obtain ⟨c, g, d, hc, hg, hd, rfl⟩ := exponent_eq_some_iff.1 e
    obtain ⟨d', hne, hdig, -, e'⟩ := digits_eq_some_iff.1 hd
    obtain rfl := List.append_cancel_right e'
    obtain ⟨y, hy⟩ : ∃ y, digits (d ++ (w ++ r)) = some y := by
      cases hx : digits (d ++ (w ++ r)) with
      | some y => exact ⟨y, rfl⟩
      | none =>
        obtain ⟨b, d, rfl⟩ := List.exists_cons_of_ne_nil hne
        have := many1_eq_none_iff.1 hx b rfl
        rw [hdig b List.mem_cons_self] at this
        cases this
    obtain ⟨d', -, -, -, e''⟩ := digits_eq_some_iff.1 hy
    have := exponent_eq_some_iff.2 ⟨c, g, d', hc, hg, e'' ▸ hy, rfl⟩
    rw [← e''] at this
    simp only [List.append_assoc, List.cons_append] at h
    rw [h] at this
    cases this

/-- What may follow the point of a decimal. -/
def fraction : Recognizer := (many Char.isDigit).seq (maybe exponent)

theorem fraction_of_append {u x r : Text} (h : fraction (u ++ (x ++ r)) = some (x ++ r)) :
    fraction (u ++ x) = some x := by
  simp only [fraction, seq, many, maybe, Option.bind_some, Option.some.injEq] at h ⊢
  obtain ⟨f, hf, e⟩ : ∃ f : Text, (∀ c ∈ f, c.isDigit = true) ∧
      u ++ (x ++ r) = f ++ (u ++ (x ++ r)).dropWhile Char.isDigit :=
    ⟨_, fun c ↦ Text.mem_takeWhile, List.takeWhile_append_dropWhile.symm⟩
  cases hx : exponent ((u ++ (x ++ r)).dropWhile Char.isDigit) with
  | none =>
    rw [hx, Option.getD_none] at h
    have hs := Text.stops_dropWhile Char.isDigit (u ++ (x ++ r))
    rw [h] at e hx hs
    obtain rfl := List.append_cancel_right e
    rw [Text.dropWhile_append_stops hf (stops_of_append hs), exponent_none_of_append hx]
    rfl
  | some w =>
    rw [hx, Option.getD_some] at h
    subst h
    obtain ⟨y, hy⟩ := consumes_exponent.suffix hx
    rw [← hy] at hx e
    obtain ⟨h₁, h₂, -⟩ := exponent_of_append hx
    obtain rfl : u = f ++ y := by
      refine (List.append_left_inj (x ++ r)).1 (e.trans ?_)
      simp
    rw [List.append_assoc, Text.dropWhile_append_stops hf h₂, h₁]
    rfl

def hex : Recognizer := (exactly "0x").seq (many1 isHexDigit)

theorem hex_eq_some_iff {s r : Text} :
    hex s = some r ↔ ∃ x, s = '0' :: 'x' :: x ∧ many1 isHexDigit x = some r := by
  simp only [hex, seq, Option.bind_eq_some_iff, exactly, Text.afterPrefix?_eq_some_iff]
  rfl

theorem hex_of_append {u x r : Text} (h : hex (u ++ (x ++ r)) = some (x ++ r)) :
    hex (u ++ x) = some x := by
  obtain ⟨z, e, hz⟩ := hex_eq_some_iff.1 h
  obtain ⟨y, rfl⟩ := (Consumes.many1 _).suffix hz
  obtain rfl : u = '0' :: 'x' :: y := (List.append_left_inj (x ++ r)).1 (e.trans (by simp))
  exact hex_eq_some_iff.2 ⟨y ++ x, rfl, many1_of_append hz⟩

theorem hex_none_of_append {u r : Text} (h : hex (u ++ r) = none) : hex u = none := by
  cases e : hex u with
  | none => rfl
  | some w =>
    obtain ⟨x, rfl, hx⟩ := hex_eq_some_iff.1 e
    cases hxr : many1 isHexDigit (x ++ r) with
    | some v =>
      rw [List.cons_append, List.cons_append, hex_eq_some_iff.2 ⟨x ++ r, rfl, hxr⟩] at h
      cases h
    | none =>
      obtain ⟨d, hd, hp, -, rfl⟩ := many1_eq_some_iff.1 hx
      obtain ⟨c, d, rfl⟩ := List.exists_cons_of_ne_nil hd
      have hc := hp c List.mem_cons_self
      simp [many1_eq_none_iff, hc] at hxr

def decimal : Recognizer := digits.seq ((exactly ".").seq fraction)

theorem decimal_eq_some_iff {s r : Text} :
    decimal s = some r ↔ ∃ x, digits s = some ('.' :: x) ∧ fraction x = some r := by
  simp only [decimal, seq, Option.bind_eq_some_iff, exactly, Text.afterPrefix?_eq_some_iff]
  constructor
  · rintro ⟨_, h, x, rfl, hx⟩
    exact ⟨x, h, hx⟩
  · rintro ⟨x, h, hx⟩
    exact ⟨_, h, x, rfl, hx⟩

theorem decimal_of_append {u x r : Text} (h : decimal (u ++ (x ++ r)) = some (x ++ r)) :
    decimal (u ++ x) = some x := by
  obtain ⟨z, hd, hf⟩ := decimal_eq_some_iff.1 h
  have hs : Splits fraction := (Splits.many _).seq (.maybe consumes_exponent.toSplits)
  obtain ⟨y, rfl⟩ := hs.suffix hf
  obtain ⟨d, hne, hdig, -, e⟩ := digits_eq_some_iff.1 hd
  obtain rfl : u = d ++ '.' :: y := (List.append_left_inj (x ++ r)).1 (e.trans (by simp))
  refine decimal_eq_some_iff.2 ⟨y ++ x, ?_, fraction_of_append hf⟩
  rw [List.append_assoc]
  exact digits_append hne hdig (by simp)

/-- Where a text starts with no decimal, its start does not either. -/
theorem decimal_none_of_append {x r : Text} (h : decimal (x ++ r) = none) : decimal x = none := by
  cases e : decimal x with
  | none => rfl
  | some w =>
    obtain ⟨z, hd, -⟩ := decimal_eq_some_iff.1 e
    obtain ⟨d, hne, hdig, -, rfl⟩ := digits_eq_some_iff.1 hd
    have hd' : digits (d ++ '.' :: (z ++ r)) = some ('.' :: (z ++ r)) :=
      digits_append hne hdig (by simp)
    rw [List.append_assoc, List.cons_append, decimal, seq, hd'] at h
    cases h

/-- A run of digits and perhaps an exponent. -/
def scaled : Recognizer := digits.seq (maybe exponent)

theorem scaled_of_append {u x r : Text} (h : scaled (u ++ (x ++ r)) = some (x ++ r)) :
    scaled (u ++ x) = some x := by
  obtain ⟨s, hd, hm⟩ := Option.bind_eq_some_iff.1 h
  obtain ⟨y, rfl⟩ := (Splits.maybe consumes_exponent.toSplits).suffix hm
  obtain ⟨d, hne, hdig, hs, e⟩ := digits_eq_some_iff.1 hd
  obtain rfl : u = d ++ y := (List.append_left_inj (x ++ r)).1 (e.trans (by simp))
  simp only [maybe, Option.some.injEq] at hm
  cases hx : exponent (y ++ (x ++ r)) with
  | none =>
    rw [hx, Option.getD_none] at hm
    obtain rfl : y = [] := by simpa using hm
    have hd : digits (d ++ x) = some x := digits_append hne hdig (stops_of_append hs)
    have hn : exponent x = none := exponent_none_of_append (r := r) hx
    rw [List.append_nil, scaled, seq, hd, Option.bind_some, maybe, hn]
    rfl
  | some w =>
    rw [hx, Option.getD_some] at hm
    subst hm
    obtain ⟨h₁, h₂, -⟩ := exponent_of_append hx
    rw [List.append_assoc, scaled, seq, digits_append hne hdig h₂]
    simp [maybe, h₁]

theorem number_eq : number = oneOf [hex, decimal, (exactly ".").seq scaled, digits.seq exponent,
    digits] := rfl

/-- A number ends where it ends in a longer text. -/
theorem number_of_append {u x r : Text} (h : number (u ++ (x ++ r)) = some (x ++ r)) :
    number (u ++ x) = some x := by
  rw [number_eq] at h ⊢
  simp only [oneOf, List.findSome?_cons, List.findSome?_nil] at h ⊢
  have hpoint : ∀ {d y : Text}, d ≠ [] → (∀ c ∈ d, c.isDigit = true) →
      ((exactly ".").seq scaled) (d ++ y) = none := by
    intro d y hne hdig
    obtain ⟨c, d, rfl⟩ := List.exists_cons_of_ne_nil hne
    have hc : '.' ≠ c := by
      rintro rfl
      cases hdig _ List.mem_cons_self
    simp [seq, exactly, Text.afterPrefix?, hc]
  rw [← List.append_assoc] at h
  split at h
  · rename_i e
    obtain rfl := Option.some.inj h
    rw [hex_of_append (by rwa [← List.append_assoc])]
  rename_i e₁
  rw [hex_none_of_append e₁]
  split at h
  · rename_i e
    obtain rfl := Option.some.inj h
    rw [decimal_of_append (by rwa [← List.append_assoc])]
  rename_i e₂
  rw [decimal_none_of_append e₂]
  rw [List.append_assoc] at h
  split at h
  · rename_i e
    obtain rfl := Option.some.inj h
    obtain ⟨z, hz, hs⟩ := Option.bind_eq_some_iff.1 e
    have hs' : Splits scaled := (Consumes.many1 _).toSplits.seq (.maybe consumes_exponent.toSplits)
    obtain ⟨y, rfl⟩ := hs'.suffix hs
    obtain rfl : u = '.' :: y := by
      refine (List.append_left_inj (x ++ r)).1 ((Text.afterPrefix?_eq_some_iff.1 hz).trans ?_)
      rfl
    have hp : ((exactly ".").seq scaled) ('.' :: y ++ x) = some x := scaled_of_append hs
    rw [hp]
  split at h
  · rename_i e
    obtain rfl := Option.some.inj h
    obtain ⟨s, hd, hx⟩ := Option.bind_eq_some_iff.1 e
    obtain ⟨y, rfl⟩ := consumes_exponent.suffix hx
    obtain ⟨d, hne, hdig, -, e'⟩ := digits_eq_some_iff.1 hd
    obtain rfl : u = d ++ y := (List.append_left_inj (x ++ r)).1 (e'.trans (by simp))
    obtain ⟨h₁, h₂, -⟩ := exponent_of_append hx
    have hexp : (digits.seq exponent) (d ++ (y ++ x)) = some x := by
      rw [seq, digits_append hne hdig h₂]; exact h₁
    rw [List.append_assoc, hpoint hne hdig, hexp]
  · rename_i e₄
    have h : digits (u ++ (x ++ r)) = some (x ++ r) := by
      split at h <;> simp_all
    obtain ⟨d, hne, hdig, -, e'⟩ := digits_eq_some_iff.1 h
    obtain rfl := List.append_cancel_right e'
    have hd : digits (u ++ x) = some x := many1_of_append h
    have hexp : (digits.seq exponent) (u ++ x) = none := by
      rw [seq, h] at e₄
      rw [seq, hd]
      exact exponent_none_of_append e₄
    rw [hpoint hne hdig, hexp, hd]

/-- A number is read alike before two texts that go on with the same characters of numbers, and
before one that goes on with none. -/
theorem number_congr {u r r' : Text} (h : number (u ++ r) = some r)
    (hr : r.takeWhile isNumeric = r'.takeWhile isNumeric ∨ Text.Stops isNumeric r') :
    number (u ++ r') = some r' := by
  obtain ⟨b, z, hb, hz, hn, e⟩ : ∃ b z : Text, (∀ c ∈ u ++ b, isNumeric c = true) ∧
      Text.Stops isNumeric z ∧ number (u ++ b) = some b ∧ r = b ++ z := by
    have hs := List.takeWhile_append_dropWhile (p := isNumeric) (l := u ++ r)
    have hz := Text.stops_dropWhile isNumeric (u ++ r)
    rw [← hs, within_number.map (fun c ↦ Text.mem_takeWhile) hz, Option.map_eq_some_iff] at h
    obtain ⟨b, hn, hb⟩ := h
    have hA : (u ++ r).takeWhile isNumeric = u ++ b := by
      refine (List.append_left_inj ((u ++ r).dropWhile isNumeric)).1 ?_
      rw [hs, List.append_assoc, hb]
    rw [hA] at hn
    exact ⟨b, _, fun c hc ↦ Text.mem_takeWhile (hA ▸ hc), hz, hn, hb.symm⟩
  subst e
  rcases hr with hr | hr
  · rw [Text.takeWhile_append_stops (fun c hc ↦ hb c (List.mem_append_right _ hc)) hz] at hr
    rw [← List.takeWhile_append_dropWhile (p := isNumeric) (l := r'), ← hr, ← List.append_assoc,
      within_number.map hb (Text.stops_dropWhile _ _), hn]
    rfl
  · have hu : number (u ++ []) = some [] := number_of_append (r := b) hn
    rw [within_number.map (fun c hc ↦ hb c (List.mem_append_left _ hc)) hr, ← List.append_nil u, hu]
    rfl

end Grammar
end QueryTemplate
