import QueryTemplate.Proofs.Token.Number
import QueryTemplate.Proofs.Token.Phrase
namespace QueryTemplate
namespace Grammar

open Recognizer

/-- Classes of one family share first characters. -/
def family : Kind → Kind
  | .comment | .number | .operator | .punctuation => .operator
  | .aggregation | .placeholder => .placeholder
  | .clause | .join | .joinConstraint | .conjunction | .membership | .identifier => .identifier
  | k => k

def familyOf (c : Char) : Kind :=
  if Text.isBlank c then .blank else if startsWord c then .identifier
  else if c = '$' then .placeholder else if c = '\'' || c = '`' || c = '"' then .string
  else if c = '(' || c = '[' then .opening else if c = ')' || c = ']' then .closing else .operator

theorem isBlank_iff {c : Char} :
    Text.isBlank c = true ↔ c = ' ' ∨ c = '\t' ∨ c = '\r' ∨ c = '\n' := by
  simp [Text.isBlank, or_assoc]

theorem familyOf_of_startsWord {c : Char} (h : startsWord c = true) : familyOf c = .identifier := by
  have hb : Text.isBlank c = false := by
    cases e : Text.isBlank c with
    | false => rfl
    | true => rcases isBlank_iff.1 e with rfl | rfl | rfl | rfl <;> cases h
  simp [familyOf, hb, h]

theorem familyOf_of_isDigit {c : Char} (h : c.isDigit = true) : familyOf c = .operator := by
  have hne : ∀ d : Char, d.isDigit = false → c ≠ d := by
    rintro d hd rfl
    simp [h] at hd
  simp [familyOf, Text.isBlank, not_startsWord_of_isDigit h, hne ' ' rfl, hne '\t' rfl,
    hne '\r' rfl, hne '\n' rfl, hne '$' rfl, hne '\'' rfl, hne '`' rfl, hne '"' rfl, hne '(' rfl,
    hne '[' rfl, hne ')' rfl, hne ']' rfl]

theorem familyOf_of_startsKind {k : Kind} {c : Char} (h : startsKind k c = true) :
    familyOf c = family k := by
  cases k with
  | clause | join | joinConstraint | conjunction | membership | identifier =>
    exact familyOf_of_startsWord h
  | blank => simp only [startsKind] at h; simp [familyOf, h, family]
  | number =>
    simp only [startsKind, Bool.or_eq_true, decide_eq_true_eq] at h
    rcases h with h | rfl
    · exact familyOf_of_isDigit h
    · rfl
  | operator =>
    obtain ⟨w, hw, e⟩ := List.any_eq_true.1 h
    have hf : ∀ w ∈ operators, ∀ c ∈ w.head?, familyOf c = .operator := by decide
    exact hf w hw c (by simpa using e)
  | comment | aggregation | placeholder | string | opening | closing | punctuation =>
    simp only [startsKind, Bool.or_eq_true, decide_eq_true_eq, or_assoc] at h
    rcases h with rfl | rfl | rfl | rfl | rfl | rfl <;> rfl

/-- The first token is of the class `k` if this class matches and none of its family before it
does. -/
theorem munch_of_family {as bs : List (Kind × Recognizer)} {b : Recognizer} {k : Kind} {u r : Text}
    (hc : classes = as ++ (k, b) :: bs) (hb : b (u ++ r) = some r)
    (ha : ∀ a ∈ as, family a.1 = family k → a.2 (u ++ r) = none) :
    munch (u ++ r) = some (⟨k, u⟩, r) := by
  refine munch_of_class hc hb fun a h hs ↦ ha a h ?_
  obtain ⟨c, s, hs', hk⟩ := (starts_of_mem_classes (c := (k, b)) (by simp [hc])).start hb
  rw [hs'] at hs
  rw [← familyOf_of_startsKind hk, ← familyOf_of_startsKind (k := a.1) (by simpa using hs)]

theorem one_append_iff {p : Char → Bool} {u r : Text} :
    one p (u ++ r) = some r ↔ ∃ c, p c = true ∧ u = [c] := by
  constructor
  · intro h
    obtain ⟨c, s, e, hc⟩ := (Starts.one (p := p)).start h
    obtain rfl : s = r := by simpa [one, e, hc] using h
    exact ⟨c, hc, (List.append_left_inj s).1 (e.trans rfl)⟩
  · rintro ⟨c, hc, rfl⟩
    simp [one, hc]

theorem munch_opening_iff {u r : Text} :
    munch (u ++ r) = some (⟨.opening, u⟩, r) ↔ u = ['('] ∨ u = ['['] := by
  have hc : classes = classes.take 13 ++ (.opening, opening) :: classes.drop 14 := rfl
  have ho : opening (u ++ r) = some r ↔ u = ['('] ∨ u = ['['] := by
    rw [opening, one_append_iff]
    simp [or_and_right, exists_or]
  rw [← ho]
  exact ⟨fun h ↦ (class_of_munch h hc).1,
    fun h ↦ munch_of_family hc h (by simp [classes, family])⟩

theorem munch_closing_iff {u r : Text} :
    munch (u ++ r) = some (⟨.closing, u⟩, r) ↔ u = [')'] ∨ u = [']'] := by
  have hc : classes = classes.take 14 ++ (.closing, closing) :: classes.drop 15 := rfl
  have ho : closing (u ++ r) = some r ↔ u = [')'] ∨ u = [']'] := by
    rw [closing, one_append_iff]
    simp [or_and_right, exists_or]
  rw [← ho]
  exact ⟨fun h ↦ (class_of_munch h hc).1,
    fun h ↦ munch_of_family hc h (by simp [classes, family])⟩

theorem munch_blank_iff {u r : Text} : munch (u ++ r) = some (⟨.blank, u⟩, r) ↔
    u ≠ [] ∧ (∀ c ∈ u, Text.isBlank c = true) ∧ Text.Stops Text.isBlank r := by
  have hc : classes = [] ++ (.blank, blank) :: classes.drop 1 := rfl
  have hb : blank (u ++ r) = some r ↔ u ≠ [] ∧ (∀ c ∈ u, Text.isBlank c = true) ∧
      Text.Stops Text.isBlank r := by
    rw [blank, gap, many1_eq_some_iff]
    constructor
    · rintro ⟨d, hd, hp, hr, e⟩
      obtain rfl := List.append_cancel_right e
      exact ⟨hd, hp, hr⟩
    · rintro ⟨hd, hp, hr⟩
      exact ⟨u, hd, hp, hr, rfl⟩
  rw [← hb]
  exact ⟨fun h ↦ (class_of_munch h hc).1, fun h ↦ munch_of_family hc h (by simp)⟩

theorem munch_number_iff {u r : Text} :
    munch (u ++ r) = some (⟨.number, u⟩, r) ↔ number (u ++ r) = some r := by
  have hc : classes = classes.take 10 ++ (.number, number) :: classes.drop 11 := rfl
  refine ⟨fun h ↦ (class_of_munch h hc).1, fun h ↦ munch_of_family hc h ?_⟩
  have hcom : comment (u ++ r) = none := by
    obtain ⟨c, s, hs, hk⟩ := (starts_of_mem_classes
      (c := (.number, number)) (by simp [classes])).start h
    rw [hs]
    refine eq_none_of_starts (k := .comment) (by simp [classes]) ?_ s
    simp only [startsKind, Bool.or_eq_true, decide_eq_true_eq] at hk ⊢
    rcases hk with hk | rfl
    · cases e : (c = '-' || c = '/' : Bool) with
      | false => rfl
      | true =>
        simp only [Bool.or_eq_true, decide_eq_true_eq] at e
        rcases e with rfl | rfl <;> cases hk
    · rfl
  simp [classes, family, hcom]

theorem munch_string_iff {u r : Text} :
    munch (u ++ r) = some (⟨.string, u⟩, r) ↔ string (u ++ r) = some r := by
  have hc : classes = classes.take 9 ++ (.string, string) :: classes.drop 10 := rfl
  refine ⟨fun h ↦ (class_of_munch h hc).1, fun h ↦ munch_of_family hc h ?_⟩
  simp [classes, family]

theorem munch_comment_iff {u r : Text} :
    munch (u ++ r) = some (⟨.comment, u⟩, r) ↔ comment (u ++ r) = some r := by
  have hc : classes = classes.take 1 ++ (.comment, comment) :: classes.drop 2 := rfl
  refine ⟨fun h ↦ (class_of_munch h hc).1, fun h ↦ munch_of_family hc h ?_⟩
  simp [classes, family]

theorem munch_aggregation_iff {u r : Text} :
    munch (u ++ r) = some (⟨.aggregation, u⟩, r) ↔ aggregation (u ++ r) = some r := by
  have hc : classes = classes.take 2 ++ (.aggregation, aggregation) :: classes.drop 3 := rfl
  refine ⟨fun h ↦ (class_of_munch h hc).1, fun h ↦ munch_of_family hc h ?_⟩
  simp [classes, family]

theorem munch_placeholder_iff {u r : Text} : munch (u ++ r) = some (⟨.placeholder, u⟩, r) ↔
    placeholder (u ++ r) = some r ∧ aggregation (u ++ r) = none := by
  have hc : classes = classes.take 8 ++ (.placeholder, placeholder) :: classes.drop 9 := rfl
  constructor
  · intro h
    obtain ⟨hp, ha⟩ := class_of_munch h hc
    exact ⟨hp, ha (.aggregation, aggregation) (by simp [classes])⟩
  · rintro ⟨hp, ha⟩
    refine munch_of_family hc hp ?_
    simp [classes, family, ha]

theorem munch_operator_iff {u r : Text} : munch (u ++ r) = some (⟨.operator, u⟩, r) ↔
    operator (u ++ r) = some r ∧ comment (u ++ r) = none ∧ number (u ++ r) = none := by
  have hc : classes = classes.take 12 ++ (.operator, operator) :: classes.drop 13 := rfl
  constructor
  · intro h
    obtain ⟨hp, ha⟩ := class_of_munch h hc
    exact ⟨hp, ha (.comment, comment) (by simp [classes]), ha (.number, number) (by simp [classes])⟩
  · rintro ⟨hp, h₁, h₂⟩
    refine munch_of_family hc hp ?_
    simp [classes, family, h₁, h₂]

theorem munch_punctuation_iff {u r : Text} : munch (u ++ r) = some (⟨.punctuation, u⟩, r) ↔
    punctuation (u ++ r) = some r ∧ operator (u ++ r) = none := by
  have hc : classes = classes.take 15 ++ (.punctuation, punctuation) :: [] := rfl
  constructor
  · intro h
    obtain ⟨hp, ha⟩ := class_of_munch h hc
    exact ⟨hp, ha (.operator, operator) (by simp [classes])⟩
  · rintro ⟨hp, h⟩
    refine munch_of_family hc hp ?_
    obtain ⟨c, s, hs, hk⟩ :=
      (starts_of_mem_classes (c := (.punctuation, punctuation)) (by simp [classes])).start hp
    simp only [startsKind, Bool.or_eq_true, decide_eq_true_eq, or_assoc] at hk
    have h₁ : comment (u ++ r) = none := by
      rw [hs]
      refine eq_none_of_starts (k := .comment) (by simp [classes]) ?_ s
      rcases hk with rfl | rfl | rfl | rfl | rfl | rfl <;> rfl
    have h₂ : number (u ++ r) = none := by
      rw [hs]
      refine eq_none_of_starts (k := .number) (by simp [classes]) ?_ s
      rcases hk with rfl | rfl | rfl | rfl | rfl | rfl <;> rfl
    simp [classes, family, h, h₁, h₂]

end Grammar
end QueryTemplate
