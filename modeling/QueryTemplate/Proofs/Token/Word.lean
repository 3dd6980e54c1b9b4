import QueryTemplate.Token.Scan

namespace QueryTemplate

namespace Text

section Decidable

variable {p : Char → Prop} [DecidablePred p]

-- Characters are finitely many, but what a text says of its own must not be tried on all of them.
instance (priority := 2000) decidableForallMem (s : Text) : Decidable (∀ c ∈ s, p c) :=
  List.decidableBAll p s

instance (priority := 2000) decidableForallMemOption (o : Option Char) : Decidable (∀ c ∈ o, p c) :=
  Option.decidableForallMem o

instance (priority := 2000) decidableExistsMemOption (o : Option Char) : Decidable (∃ c ∈ o, p c) :=
  Option.decidableExistsMem o

end Decidable

/-- A text that is empty or starts outside of the class `p`. -/
def Stops (p : Char → Bool) (s : Text) : Prop := ∀ c ∈ s.head?, p c = false

@[simp] theorem stops_nil (p : Char → Bool) : Stops p [] := by simp [Stops]

@[simp] theorem stops_cons (p : Char → Bool) (c : Char) (s : Text) :
    Stops p (c :: s) ↔ p c = false := by simp [Stops]

theorem stops_dropWhile (p : Char → Bool) (s : Text) : Stops p (s.dropWhile p) := by
  induction s with
  | nil => simp
  | cons c s ih => by_cases h : p c = true <;> simp_all [List.dropWhile]

theorem takeWhile_of_stops {p : Char → Bool} {s : Text} (h : Stops p s) : s.takeWhile p = [] := by
  cases s <;> simp_all

theorem dropWhile_of_stops {p : Char → Bool} {s : Text} (h : Stops p s) : s.dropWhile p = s := by
  cases s <;> simp_all

theorem takeWhile_append_stops {p : Char → Bool} {u v : Text} (hu : ∀ c ∈ u, p c = true)
    (hv : Stops p v) : (u ++ v).takeWhile p = u := by
  rw [List.takeWhile_append_of_pos hu, takeWhile_of_stops hv, List.append_nil]

/-- A text that stops at once adds nothing to a run before it. -/
theorem takeWhile_append_of_stops {p : Char → Bool} {v : Text} (hv : Stops p v) (u : Text) :
    (u ++ v).takeWhile p = u.takeWhile p := by
  rw [List.takeWhile_append, takeWhile_of_stops hv, List.append_nil]
  split
  · exact ((List.takeWhile_prefix p).eq_of_length (by assumption)).symm
  · rfl

theorem dropWhile_append_stops {p : Char → Bool} {u v : Text} (hu : ∀ c ∈ u, p c = true)
    (hv : Stops p v) : (u ++ v).dropWhile p = v := by
  rw [List.dropWhile_append_of_pos hu, dropWhile_of_stops hv]

theorem mem_takeWhile {p : Char → Bool} {s : Text} {c : Char} (h : c ∈ s.takeWhile p) :
    p c = true := by
  induction s with
  | nil => simp at h
  | cons d s ih =>
    by_cases hd : p d = true
    · simp only [List.takeWhile_cons, hd, if_true, List.mem_cons] at h
      rcases h with rfl | h
      · exact hd
      · exact ih h
    · simp [hd] at h

/-- A text in which a run of the class `p` comes first is that run and what follows it. -/
theorem eq_takeWhile_of_dropWhile {p : Char → Bool} {t r : Text}
    (h : (t ++ r).dropWhile p = r) : (t ++ r).takeWhile p = t := by
  have e := List.takeWhile_append_dropWhile (p := p) (l := t ++ r)
  rw [h] at e
  exact List.append_cancel_right e

theorem isAlpha_iff {c : Char} : c.isAlpha = true ↔
    (65 ≤ c.val.toNat ∧ c.val.toNat ≤ 90) ∨ (97 ≤ c.val.toNat ∧ c.val.toNat ≤ 122) := by
  have hu : c.isUpper = true ↔ 65 ≤ c.val.toNat ∧ c.val.toNat ≤ 90 := by
    rw [show c.isUpper = decide (c.val ≥ 'A'.val ∧ c.val ≤ 'Z'.val) from rfl, decide_eq_true_eq,
      ge_iff_le, UInt32.le_iff_toNat_le, UInt32.le_iff_toNat_le]
    rfl
  have hl : c.isLower = true ↔ 97 ≤ c.val.toNat ∧ c.val.toNat ≤ 122 := by
    rw [show c.isLower = (decide (c.val ≥ 'a'.val) && decide (c.val ≤ 'z'.val)) from rfl,
      Bool.and_eq_true, decide_eq_true_eq, decide_eq_true_eq, ge_iff_le, UInt32.le_iff_toNat_le,
      UInt32.le_iff_toNat_le]
    rfl
  rw [show c.isAlpha = (c.isUpper || c.isLower) from rfl, Bool.or_eq_true, hu, hl]

/-- A capital is 32 places before its small letter; any other character is its own. -/
theorem toLower_cases (c : Char) :
    (65 ≤ c.val.toNat ∧ c.val.toNat ≤ 90) ∧ c.toLower.val.toNat = c.val.toNat + 32 ∨
    ¬ (65 ≤ c.val.toNat ∧ c.val.toNat ≤ 90) ∧ c.toLower = c := by
  have hle : (c.val ≥ 'A'.val ∧ c.val ≤ 'Z'.val) ↔ 65 ≤ c.val.toNat ∧ c.val.toNat ≤ 90 := by
    rw [ge_iff_le, UInt32.le_iff_toNat_le, UInt32.le_iff_toNat_le]
    rfl
  by_cases h : c.val ≥ 'A'.val ∧ c.val ≤ 'Z'.val
  · have hv : c.toLower.val = c.val + ('a'.val - 'A'.val) := congrArg Char.val (dif_pos h)
    have hc := hle.1 h
    refine .inl ⟨hc, ?_⟩
    rw [hv, UInt32.toNat_add, show ('a'.val - 'A'.val).toNat = 32 by decide]
    omega
  · exact .inr ⟨fun hc ↦ h (hle.2 hc), dif_neg h⟩

theorem isNameChar_of_toLower {c : Char} (h : isNameChar c.toLower = true) :
    isNameChar c = true := by
  rcases toLower_cases c with ⟨hc, -⟩ | ⟨-, e⟩
  · simp only [isNameChar, Char.isAlphanum, isAlpha_iff.2 (.inl hc), Bool.true_or]
  · rwa [e] at h

@[simp] theorem lower_nil : lower [] = [] := rfl

@[simp] theorem lower_cons (c : Char) (s : Text) : lower (c :: s) = c.toLower :: lower s := rfl

@[simp] theorem lower_append (s t : Text) : lower (s ++ t) = lower s ++ lower t := by simp [lower]

@[simp] theorem length_lower (s : Text) : (lower s).length = s.length := by simp [lower]

end Text

namespace Recognizer

theorem word_eq_some_iff {w s r : Text} :
    word w s = some r ↔ ∃ p, s = p ++ r ∧ Text.lower p = w := by
  induction w generalizing s with
  | nil =>
    simp only [word, Option.some.injEq]
    refine ⟨fun h ↦ ⟨[], h, rfl⟩, ?_⟩
    rintro ⟨p, rfl, hp⟩
    simp_all [Text.lower]
  | cons c w ih =>
    cases s with
    | nil =>
      refine ⟨(fun h ↦ by cases h), ?_⟩
      rintro ⟨p, h, hp⟩
      obtain ⟨rfl, rfl⟩ := List.append_eq_nil_iff.1 h.symm
      cases hp
    | cons d s =>
      simp only [word]
      constructor
      · intro h
        split at h
        · rename_i e
          obtain ⟨p, rfl, hp⟩ := ih.1 h
          exact ⟨d :: p, rfl, by simp [e, hp]⟩
        · cases h
      · rintro ⟨p, h, hp⟩
        cases p with
        | nil => cases hp
        | cons a p =>
          obtain ⟨rfl, rfl⟩ := List.cons.inj h
          obtain ⟨ha, hp⟩ := List.cons.inj hp
          rw [if_pos ha]
          exact ih.2 ⟨p, rfl, hp⟩

theorem boundary_eq_some_iff {s r : Text} :
    boundary s = some r ↔ r = s ∧ Text.Stops Text.isNameChar s := by
  cases s with
  | nil => simp [boundary, notAhead, one, eq_comm]
  | cons c s => by_cases h : Text.isNameChar c = true <;> simp [boundary, notAhead, one, h, eq_comm]

theorem gap_cons {c : Char} (h : Text.isBlank c = true) (s : Text) :
    gap (c :: s) = some (s.dropWhile Text.isBlank) := by
  simp [gap, many1, seq, one, many, h]

theorem gap_of_stops {s : Text} (h : Text.Stops Text.isBlank s) : gap s = none := by
  cases s with
  | nil => rfl
  | cons c s => simp_all [gap, many1, seq, one]

end Recognizer

namespace Grammar

open Recognizer

/-- The place after the name at the start of a text and the blanks behind it. -/
def skipWord (s : Text) : Text := (s.dropWhile Text.isNameChar).dropWhile Text.isBlank

/-- Whether a name at the start of a text has a blank behind it. -/
def spaced (s : Text) : Bool := (s.dropWhile Text.isNameChar).head?.any Text.isBlank

theorem skipWord_length {s : Text} (h : spaced s = true) : (skipWord s).length < s.length := by
  have hs := (List.dropWhile_suffix Text.isNameChar (l := s)).length_le
  simp only [spaced, Option.any_eq_true] at h
  obtain ⟨c, hc, hb⟩ := h
  obtain ⟨r, hr⟩ := List.head?_eq_some_iff.1 hc
  have hd := (List.dropWhile_suffix Text.isBlank (l := r)).length_le
  rw [skipWord, hr, List.dropWhile_cons_of_pos hb]
  rw [hr, List.length_cons] at hs
  omega

/-- The names at the start of a text that only blanks separate, in lower case. The last one is
empty where no name follows the blanks. -/
def leadingWords (s : Text) : List Text :=
  Text.lower (s.takeWhile Text.isNameChar) ::
    if _h : spaced s = true then leadingWords (skipWord s) else []
termination_by s.length
decreasing_by exact skipWord_length _h

theorem leadingWords_of_spaced {s : Text} (h : spaced s = true) :
    leadingWords s = Text.lower (s.takeWhile Text.isNameChar) :: leadingWords (skipWord s) := by
  rw [leadingWords, dif_pos h]

theorem leadingWords_of_not_spaced {s : Text} (h : spaced s = false) :
    leadingWords s = [Text.lower (s.takeWhile Text.isNameChar)] := by
  rw [leadingWords, dif_neg (by simp [h])]

theorem leadingWords_eq_cons (s : Text) : ∃ us, leadingWords s =
    Text.lower (s.takeWhile Text.isNameChar) :: us := by
  rw [leadingWords]
  exact ⟨_, rfl⟩

/-- The place after `n` of the leading words, and the blanks behind them. -/
def skipWords : Nat → Text → Text
  | 0, s => s
  | n + 1, s => skipWords n (skipWord s)

/-- The place just after the leading word number `n`, the first one being number 0. -/
def pastWord (n : Nat) (s : Text) : Text := (skipWords n s).dropWhile Text.isNameChar

theorem leadingWords_skipWords {n : Nat} {s : Text} (h : n < (leadingWords s).length) :
    leadingWords (skipWords n s) = (leadingWords s).drop n := by
  induction n generalizing s with
  | zero => rfl
  | succ n ih =>
    cases hs : spaced s with
    | false => simp [leadingWords_of_not_spaced hs] at h
    | true =>
      rw [leadingWords_of_spaced hs] at h ⊢
      exact ih (by simpa using h)

/-- The words of phrases are names in lower case. -/
def IsWord (w : Text) : Prop := w ≠ [] ∧ ∀ c ∈ w, Text.isNameChar c = true

theorem isNameChar_of_lower {p w : Text} (h : Text.lower p = w)
    (hw : ∀ c ∈ w, Text.isNameChar c = true) : ∀ c ∈ p, Text.isNameChar c = true := by
  intro c hc
  refine Text.isNameChar_of_toLower (hw _ ?_)
  rw [← h]
  exact List.mem_map_of_mem hc

/-- A word matches where it is a prefix of the name at the start. -/
theorem isSome_word {w s : Text} (hw : ∀ c ∈ w, Text.isNameChar c = true) :
    (word w s).isSome = w.isPrefixOf (Text.lower (s.takeWhile Text.isNameChar)) := by
  rw [Bool.eq_iff_iff, List.isPrefixOf_iff_prefix, Option.isSome_iff_exists]
  constructor
  · rintro ⟨r, h⟩
    obtain ⟨p, rfl, hp⟩ := word_eq_some_iff.1 h
    rw [List.takeWhile_append_of_pos (isNameChar_of_lower hp hw), Text.lower_append, hp]
    exact List.prefix_append _ _
  · rintro ⟨q, h⟩
    have e := List.takeWhile_append_dropWhile (p := Text.isNameChar) (l := s)
    obtain ⟨p, q', hpq, hp, -⟩ := List.map_eq_append_iff.1 h.symm
    refine ⟨q' ++ s.dropWhile Text.isNameChar, word_eq_some_iff.2 ⟨p, ?_, hp⟩⟩
    rw [← List.append_assoc, ← hpq, e]

/-- A word up to a boundary is the whole name at the start. -/
theorem word_boundary {w s r : Text} (hw : ∀ c ∈ w, Text.isNameChar c = true) :
    ((word w).seq boundary) s = some r ↔
      Text.lower (s.takeWhile Text.isNameChar) = w ∧ r = s.dropWhile Text.isNameChar := by
  simp only [seq, Option.bind_eq_some_iff, boundary_eq_some_iff]
  constructor
  · rintro ⟨u, hu, rfl, hb⟩
    obtain ⟨p, rfl, hp⟩ := word_eq_some_iff.1 hu
    have hn := isNameChar_of_lower hp hw
    rw [Text.takeWhile_append_stops hn hb, Text.dropWhile_append_stops hn hb]
    exact ⟨hp, rfl⟩
  · rintro ⟨h, rfl⟩
    refine ⟨_, word_eq_some_iff.2 ⟨s.takeWhile Text.isNameChar, ?_, h⟩, rfl,
      Text.stops_dropWhile _ _⟩
    exact List.takeWhile_append_dropWhile.symm

theorem stops_name_of_isBlank {c : Char} (h : Text.isBlank c = true) :
    Text.isNameChar c = false := by
  simp only [Text.isBlank, Bool.or_eq_true, decide_eq_true_eq] at h
  rcases h with ((rfl | rfl) | rfl) | rfl <;> rfl

/-- A word with a gap behind it is the whole name at the start. -/
theorem word_gap {w s r : Text} (hw : ∀ c ∈ w, Text.isNameChar c = true) :
    ((word w).seq gap) s = some r ↔
      Text.lower (s.takeWhile Text.isNameChar) = w ∧ spaced s = true ∧ r = skipWord s := by
  simp only [seq, Option.bind_eq_some_iff]
  constructor
  · rintro ⟨u, hu, hg⟩
    cases u with
    | nil => cases hg
    | cons c u =>
      cases hc : Text.isBlank c with
      | false => rw [gap_of_stops (by simp [hc])] at hg; cases hg
      | true =>
        rw [gap_cons hc] at hg
        obtain ⟨p, rfl, hp⟩ := word_eq_some_iff.1 hu
        have hn := isNameChar_of_lower hp hw
        have hb : Text.Stops Text.isNameChar (c :: u) := by simp [stops_name_of_isBlank hc]
        rw [spaced, skipWord, Text.takeWhile_append_stops hn hb, Text.dropWhile_append_stops hn hb]
        refine ⟨hp, by simp [hc], ?_⟩
        rw [List.dropWhile_cons_of_pos hc]
        exact (Option.some.inj hg).symm
  · rintro ⟨h, hs, rfl⟩
    simp only [spaced, Option.any_eq_true] at hs
    obtain ⟨c, hc, hb⟩ := hs
    obtain ⟨u, hu⟩ := List.head?_eq_some_iff.1 hc
    refine ⟨_, word_eq_some_iff.2 ⟨s.takeWhile Text.isNameChar,
      List.takeWhile_append_dropWhile.symm, h⟩, ?_⟩
    rw [skipWord, hu, gap_cons hb, List.dropWhile_cons_of_pos hb]

theorem seq_assoc (a b c : Recognizer) : (a.seq b).seq c = a.seq (b.seq c) := by
  funext s
  simp only [seq]
  cases a s <;> rfl

/-- Whether a phrase can be read at the start of these words, its last word as a part of a longer
one at least. -/
def startsPhrase : (p ws : List Text) → Bool
  | [], _ => true
  | _ :: _, [] => false
  | [w], u :: _ => w.isPrefixOf u
  | w :: v :: p, u :: us => decide (u = w) && startsPhrase (v :: p) us

/-- The phrases of a list consist of names. -/
def Named (p : List Text) : Prop := p ≠ [] ∧ ∀ w ∈ p, ∀ c ∈ w, Text.isNameChar c = true

instance (p : List Text) : Decidable (Named p) := inferInstanceAs (Decidable (_ ∧ _))

theorem Named.tail {w v : Text} {p : List Text} (h : Named (w :: v :: p)) : Named (v :: p) :=
  ⟨by simp, fun u hu ↦ h.2 u (List.mem_cons_of_mem _ hu)⟩

theorem Named.head {w : Text} {p : List Text} (h : Named (w :: p)) :
    ∀ c ∈ w, Text.isNameChar c = true := h.2 w List.mem_cons_self

theorem phrase_cons_cons (w v : Text) (p : List Text) :
    phrase (w :: v :: p) = ((word w).seq gap).seq (phrase (v :: p)) := by
  rw [phrase, seq_assoc]
  simp

theorem word_gap_seq {w s : Text} (a : Recognizer) (hw : ∀ c ∈ w, Text.isNameChar c = true) :
    (((word w).seq gap).seq a) s =
      if Text.lower (s.takeWhile Text.isNameChar) = w ∧ spaced s = true then a (skipWord s)
      else none := by
  cases h : ((word w).seq gap) s with
  | some r =>
    obtain ⟨h₁, h₂, rfl⟩ := (word_gap hw).1 h
    rw [if_pos ⟨h₁, h₂⟩, seq, h]
    rfl
  | none =>
    rw [if_neg, seq, h]
    · rfl
    · rintro ⟨h₁, h₂⟩
      rw [(word_gap hw).2 ⟨h₁, h₂, rfl⟩] at h
      cases h

theorem isSome_phrase {p : List Text} (hp : Named p) (s : Text) :
    (phrase p s).isSome = startsPhrase p (leadingWords s) := by
  induction p generalizing s with
  | nil => exact absurd rfl hp.1
  | cons w p ih =>
    cases p with
    | nil =>
      obtain ⟨us, hu⟩ := leadingWords_eq_cons s
      rw [hu, phrase, isSome_word hp.head, startsPhrase]
    | cons v p =>
      rw [phrase_cons_cons, word_gap_seq _ hp.head]
      cases hs : spaced s with
      | false =>
        rw [leadingWords_of_not_spaced hs]
        cases p <;> simp [startsPhrase]
      | true =>
        rw [leadingWords_of_spaced hs, startsPhrase, ← ih hp.tail]
        split <;> simp_all

theorem pastWord_succ (n : Nat) (s : Text) : pastWord (n + 1) s = pastWord n (skipWord s) := rfl

/-- A phrase up to a boundary is read where it begins the leading words. -/
theorem phrase_boundary {p : List Text} (hp : Named p) {s r : Text} :
    ((phrase p).seq boundary) s = some r ↔
      p <+: leadingWords s ∧ r = pastWord (p.length - 1) s := by
  induction p generalizing s with
  | nil => exact absurd rfl hp.1
  | cons w p ih =>
    cases p with
    | nil =>
      obtain ⟨us, hu⟩ := leadingWords_eq_cons s
      rw [phrase, word_boundary hp.head, hu, List.cons_prefix_cons]
      simp [pastWord, skipWords, eq_comm]
    | cons v p =>
      rw [phrase_cons_cons, seq_assoc, word_gap_seq _ hp.head]
      cases hs : spaced s with
      | false =>
        rw [leadingWords_of_not_spaced hs, List.cons_prefix_cons]
        simp
      | true =>
        rw [leadingWords_of_spaced hs, List.cons_prefix_cons]
        have h := ih hp.tail (s := skipWord s)
        by_cases e : Text.lower (s.takeWhile Text.isNameChar) = w
        · rw [if_pos ⟨e, rfl⟩, h]
          simp [e, pastWord_succ]
        · rw [if_neg (by simp [e])]
          simp [Ne.symm e]

theorem phrase_gap {p : List Text} (hp : Named p) {s r : Text} :
    ((phrase p).seq gap) s = some r ↔
      p <+: leadingWords s ∧ p.length < (leadingWords s).length ∧ r = skipWords p.length s := by
  induction p generalizing s with
  | nil => exact absurd rfl hp.1
  | cons w p ih =>
    cases hs : spaced s with
    | false =>
      rw [leadingWords_of_not_spaced hs]
      have hn : ((phrase (w :: p)).seq gap) s ≠ some r := by
        cases p with
        | nil => simp [phrase, word_gap hp.head, hs]
        | cons v p =>
          rw [phrase_cons_cons, seq_assoc, word_gap_seq _ hp.head, if_neg (by simp [hs])]
          simp
      simp [hn]
    | true =>
      rw [leadingWords_of_spaced hs, List.cons_prefix_cons]
      cases p with
      | nil =>
        obtain ⟨us, hu⟩ := leadingWords_eq_cons (skipWord s)
        rw [phrase, word_gap hp.head]
        simp [skipWords, hs, hu, eq_comm]
      | cons v p =>
        rw [phrase_cons_cons, seq_assoc, word_gap_seq _ hp.head]
        have h := ih hp.tail (s := skipWord s)
        by_cases e : Text.lower (s.takeWhile Text.isNameChar) = w
        · rw [if_pos ⟨e, hs⟩, h]
          simp [e, skipWords]
        · rw [if_neg (by simp [e])]
          simp [Ne.symm e]

theorem oneOf_phrases {ps : List (List Text)} (h : ∀ p ∈ ps, Named p) (s : Text) :
    oneOf (ps.map phrase) s =
      (ps.find? (startsPhrase · (leadingWords s))).bind (phrase · s) := by
  induction ps with
  | nil => rfl
  | cons p ps ih =>
    have hp := isSome_phrase (h p List.mem_cons_self) s
    have ih := ih fun q hq ↦ h q (List.mem_cons_of_mem _ hq)
    simp only [oneOf, List.map_cons, List.findSome?_cons] at ih ⊢
    cases e : phrase p s with
    | some r =>
      rw [e] at hp
      rw [List.find?_cons_of_pos (by simpa using hp.symm)]
      exact e.symm
    | none =>
      rw [e] at hp
      rw [List.find?_cons_of_neg (by simpa using hp.symm)]
      exact ih

/-- Phrases none of which is read in place of another one. -/
def Distinct (ps : List (List Text)) : Prop :=
  ps.Pairwise fun p q ↦ startsPhrase p q = false ∧ ¬ q <+: p

instance (ps : List (List Text)) : Decidable (Distinct ps) :=
  inferInstanceAs (Decidable (List.Pairwise _ _))

theorem startsPhrase_of_prefixed {p ws : List Text} (h : p <+: ws) : startsPhrase p ws = true := by
  induction p generalizing ws with
  | nil => rfl
  | cons w p ih =>
    obtain ⟨q, rfl⟩ := h
    cases p with
    | nil => simp [startsPhrase]
    | cons v p => simpa [startsPhrase] using ih (List.prefix_append _ q)

theorem startsPhrase_or_prefixed {p q ws : List Text} (hp : startsPhrase p ws = true)
    (hq : q <+: ws) : startsPhrase p q = true ∨ q <+: p := by
  induction p generalizing q ws with
  | nil => exact .inl rfl
  | cons w p ih =>
    cases q with
    | nil => exact .inr List.nil_prefix
    | cons v q =>
      cases ws with
      | nil => simp at hq
      | cons u us =>
        obtain ⟨rfl, hq'⟩ := List.cons_prefix_cons.1 hq
        cases p with
        | nil => exact .inl (by simpa [startsPhrase] using hp)
        | cons w' p =>
          simp only [startsPhrase, Bool.and_eq_true, decide_eq_true_eq] at hp ⊢
          obtain ⟨rfl, hp⟩ := hp
          rcases ih hp hq' with h | h
          · exact .inl ⟨rfl, h⟩
          · exact .inr (List.cons_prefix_cons.2 ⟨rfl, h⟩)

/-- The number of words of the phrase that begins these words. -/
def phraseWords (ps : List (List Text)) (ws : List Text) : Option Nat :=
  (ps.find? (·.isPrefixOf ws)).map List.length

/-- A recognizer takes as many leading words as `f` says. -/
def Takes (a : Recognizer) (f : List Text → Option Nat) : Prop :=
  ∀ s, a s = (f (leadingWords s)).map fun n ↦ pastWord (n - 1) s

theorem takes_phrases (ps : List (List Text)) (h : ∀ p ∈ ps, Named p) (hu : Distinct ps) :
    Takes ((oneOf (ps.map phrase)).seq boundary) (phraseWords ps) := by
  intro s
  rw [seq, oneOf_phrases h]
  induction ps with
  | nil => rfl
  | cons p ps ih =>
    have hp := h p List.mem_cons_self
    obtain ⟨hd, hu⟩ := List.pairwise_cons.1 hu
    have ih := ih (fun q hq ↦ h q (List.mem_cons_of_mem _ hq)) hu
    cases e : startsPhrase p (leadingWords s) with
    | false =>
      have hn : ¬ p <+: leadingWords s := fun hp ↦ by
        rw [startsPhrase_of_prefixed hp] at e
        cases e
      rw [List.find?_cons_of_neg (by simp [e]), phraseWords,
        List.find?_cons_of_neg (by simpa using hn)]
      exact ih
    | true =>
      rw [List.find?_cons_of_pos (p := (startsPhrase · (leadingWords s))) e, Option.bind_some,
        phraseWords]
      have hb := @phrase_boundary _ hp s
      by_cases hpre : p <+: leadingWords s
      · rw [List.find?_cons_of_pos (by simpa using hpre)]
        exact hb.2 ⟨hpre, rfl⟩
      · have hn : ps.find? (·.isPrefixOf (leadingWords s)) = none := by
          refine List.find?_eq_none.2 fun q hq hqs ↦ ?_
          obtain ⟨h₁, h₂⟩ := hd q hq
          rcases startsPhrase_or_prefixed e (List.isPrefixOf_iff_prefix.1 hqs) with h' | h'
          · simp [h'] at h₁
          · exact h₂ h'
        rw [List.find?_cons_of_neg (by simpa using hpre), hn]
        cases hs : ((phrase p).seq boundary) s with
        | none => exact hs
        | some r => exact absurd (hb.1 hs).1 hpre

/-- The words that `optional` takes, those of the first phrase that can be read if a gap follows
it. -/
def optionalWords (ps : List (List Text)) (ws : List Text) : Nat :=
  match ps.find? (startsPhrase · ws) with
  | some p => if p.isPrefixOf ws && p.length < ws.length then p.length else 0
  | none => 0

theorem optional_eq {ps : List (List Text)} (h : ∀ p ∈ ps, Named p) (s : Text) :
    optional ps s = some (skipWords (optionalWords ps (leadingWords s)) s) := by
  rw [optional, maybe, seq, oneOf_phrases h, optionalWords]
  cases e : ps.find? (startsPhrase · (leadingWords s)) with
  | none => rfl
  | some p =>
    have hp := @phrase_gap _ (h p (List.mem_of_find?_eq_some e)) s
    simp only [Option.bind_some]
    by_cases hw : p <+: leadingWords s ∧ p.length < (leadingWords s).length
    · have hs := hp.2 ⟨hw.1, hw.2, rfl⟩
      rw [seq] at hs
      rw [hs, if_pos (by simpa using hw)]
      rfl
    · rw [if_neg (by simpa using hw)]
      cases hs : ((phrase p).seq gap) s with
      | none => rw [seq] at hs; rw [hs]; rfl
      | some r => exact absurd ⟨(hp.1 hs).1, (hp.1 hs).2.1⟩ hw

theorem optionalWords_lt {ps : List (List Text)} {ws : List Text} (h : ws ≠ []) :
    optionalWords ps ws < ws.length := by
  have := List.length_pos_iff.2 h
  rw [optionalWords]
  split
  · split
    · simp_all
    · omega
  · omega

/-- The words of a join phrase with these optional parts before `JOIN`. -/
def joinWords : (parts : List (List (List Text))) → List Text → Option Nat
  | [], ws => if ws.head? = some "join".toList then some 1 else none
  | ps :: parts, ws =>
    let n := optionalWords ps ws
    (joinWords parts (ws.drop n)).map (n + ·)

def joinParts : List (List (List Text)) := [[["global"]], joinStrictness, joinKinds, joinModifiers]

theorem leadingWords_ne_nil (s : Text) : leadingWords s ≠ [] := by
  obtain ⟨us, h⟩ := leadingWords_eq_cons s
  simp [h]

theorem skipWords_add (m n : Nat) (s : Text) :
    skipWords (m + n) s = skipWords n (skipWords m s) := by
  induction m generalizing s with
  | zero => rw [Nat.zero_add]; rfl
  | succ m ih => rw [Nat.add_right_comm]; exact ih _

theorem joinWords_pos {parts : List (List (List Text))} {ws : List Text} {n : Nat}
    (h : joinWords parts ws = some n) : 0 < n := by
  induction parts generalizing ws n with
  | nil =>
    simp only [joinWords] at h
    split at h <;> simp_all; omega
  | cons ps parts ih =>
    obtain ⟨m, hm, rfl⟩ := Option.map_eq_some_iff.1 h
    have := ih hm
    omega

theorem takes_join_parts (parts : List (List (List Text))) (h : ∀ ps ∈ parts, ∀ p ∈ ps, Named p) :
    Takes (parts.foldr (fun ps a ↦ (optional ps).seq a) ((word "join").seq boundary))
      (joinWords parts) := by
  induction parts with
  | nil =>
    intro s
    obtain ⟨us, hu⟩ := leadingWords_eq_cons s
    have hw := @word_boundary "join" s
    simp only [List.foldr_nil, joinWords, hu, List.head?_cons, Option.some.injEq]
    split
    · exact (hw (by decide)).2 ⟨by assumption, rfl⟩
    · cases e : ((word "join").seq boundary) s with
      | none => rfl
      | some r => exact absurd ((hw (by decide)).1 e).1 (by assumption)
  | cons ps parts ih =>
    intro s
    have hl : optionalWords ps _ < _ := optionalWords_lt (leadingWords_ne_nil s)
    rw [List.foldr_cons, seq, optional_eq (h ps List.mem_cons_self), Option.bind_some,
      ih (fun q hq ↦ h q (List.mem_cons_of_mem _ hq)), leadingWords_skipWords hl, joinWords,
      Option.map_map]
    cases e : joinWords parts ((leadingWords s).drop (optionalWords ps (leadingWords s))) with
    | none => rfl
    | some m =>
      have := joinWords_pos e
      simp only [Option.map_some, Function.comp_apply, pastWord, ← skipWords_add]
      rw [show ∀ k, k + m - 1 = k + (m - 1) by omega]

theorem takes_join : Takes join (joinWords joinParts) :=
  takes_join_parts joinParts (by decide)

/-- The words of a clause keyword; `WITH` counts unless a modifier follows it. -/
def clauseWords (ws : List Text) : Option Nat :=
  match phraseWords clausePhrases ws with
  | some n => some n
  | none =>
    if ws.head? = some "with".toList ∧ ¬ ∃ v ∈ ws[1]?, v ∈ modifiers then some 1 else none

theorem isSome_phraseWords_singletons (vs : List Text) (u : Text) (us : List Text) :
    (phraseWords (vs.map fun w ↦ [w]) (u :: us)).isSome = true ↔ u ∈ vs := by
  simp only [phraseWords, Option.isSome_map, List.find?_isSome, List.mem_map,
    List.isPrefixOf_iff_prefix]
  constructor
  · rintro ⟨_, ⟨w, hw, rfl⟩, h⟩
    obtain ⟨rfl, -⟩ := List.cons_prefix_cons.1 h
    exact hw
  · exact fun h ↦ ⟨[u], ⟨u, h, rfl⟩, List.cons_prefix_cons.2 ⟨rfl, List.nil_prefix⟩⟩

theorem isSome_withModifier (s : Text) :
    (withModifier (s.dropWhile Text.isNameChar)).isSome = true ↔
      ∃ v ∈ (leadingWords s)[1]?, v ∈ modifiers := by
  have hm : modifiers.map word = (modifiers.map fun w ↦ [w]).map phrase := by
    simp [modifiers, phrase]
  have ht := takes_phrases (modifiers.map fun w ↦ [w]) (by decide) (by decide)
  rw [withModifier, hm]
  cases hs : spaced s with
  | false =>
    have hb : Text.Stops Text.isBlank (s.dropWhile Text.isNameChar) := by
      intro c hc
      simpa [spaced, Option.mem_def.1 hc] using hs
    simp [leadingWords_of_not_spaced hs, seq, gap_of_stops hb]
  | true =>
    have h := hs
    simp only [spaced, Option.any_eq_true] at h
    obtain ⟨c, hc, hb⟩ := h
    obtain ⟨u, hu⟩ := List.head?_eq_some_iff.1 hc
    obtain ⟨us, hw⟩ := leadingWords_eq_cons (skipWord s)
    have hg : gap (s.dropWhile Text.isNameChar) = some (skipWord s) := by
      rw [skipWord, hu, gap_cons hb, List.dropWhile_cons_of_pos hb]
    rw [leadingWords_of_spaced hs, seq, hg, Option.bind_some, ht, Option.isSome_map, hw,
      isSome_phraseWords_singletons]
    simp

theorem takes_clause : Takes clause clauseWords := by
  intro s
  have ht := takes_phrases clausePhrases (by decide) (by decide) s
  have hw := isSome_withModifier s
  obtain ⟨us, hu⟩ := leadingWords_eq_cons s
  have happ : ∀ as b, oneOf (as ++ [b]) s = (oneOf as s).or (b s) := by
    intro as b
    simp only [oneOf, List.findSome?_append, List.findSome?_cons, List.findSome?_nil]
    cases b s <;> rfl
  rw [clause, seq, happ, clauseWords]
  rw [seq] at ht
  cases e : oneOf (clausePhrases.map phrase) s with
  | some u =>
    rw [e] at ht
    change (some u).bind boundary = _
    rw [ht]
    cases hp : phraseWords clausePhrases (leadingWords s) with
    | some n => rfl
    | none =>
      rw [if_neg]
      rintro ⟨hh, -⟩
      rw [oneOf_phrases (by decide), hu,
        show Text.lower (s.takeWhile Text.isNameChar) = "with".toList by simpa [hu] using hh] at e
      rw [List.find?_eq_none.2 (by simp [clausePhrases, startsPhrase, List.isPrefixOf])] at e
      cases e
  | none =>
    rw [e] at ht
    change (((word "with").seq (notAhead withModifier)) s).bind boundary = _
    rw [Option.map_eq_none_iff.1 ht.symm]
    have hb := @word_boundary "with" s
    simp only [hu, List.head?_cons, Option.some.injEq] at hw ⊢
    simp only [← hw]
    split
    · rename_i h
      have hs := (hb (by decide)).2 ⟨h.1, rfl⟩
      obtain ⟨u, hwu, hbu⟩ := Option.bind_eq_some_iff.1 hs
      obtain ⟨rfl, hst⟩ := boundary_eq_some_iff.1 hbu
      rw [seq, hwu, Option.bind_some, notAhead, if_neg h.2]
      exact hbu
    · rename_i h
      refine Option.eq_none_iff_forall_ne_some.2 fun r hr ↦ h ?_
      obtain ⟨v, hv, hbv⟩ := Option.bind_eq_some_iff.1 hr
      obtain ⟨u, hwu, hnu⟩ := Option.bind_eq_some_iff.1 hv
      simp only [notAhead] at hnu
      split at hnu
      · cases hnu
      · obtain rfl := Option.some.inj hnu
        have hs : ((word "with").seq boundary) s = some r := Option.bind_eq_some_iff.2 ⟨u, hwu, hbv⟩
        obtain ⟨h₁, h₂⟩ := (hb (by decide)).1 hs
        obtain ⟨rfl, -⟩ := boundary_eq_some_iff.1 hbv
        exact ⟨h₁, h₂ ▸ by assumption⟩

theorem takes_joinConstraint : Takes joinConstraint (phraseWords [["using"], ["on"]]) :=
  takes_phrases [["using"], ["on"]] (by decide) (by decide)

theorem takes_conjunction : Takes conjunction (phraseWords [["and"], ["or"]]) :=
  takes_phrases [["and"], ["or"]] (by decide) (by decide)

theorem takes_membership : Takes membership (phraseWords membershipPhrases) :=
  takes_phrases _ (by decide) (by decide)

/-- The classes of tokens that start with a letter, as they count leading words. -/
def wordClasses : List (Kind × (List Text → Option Nat)) :=
  [(.clause, clauseWords), (.join, joinWords joinParts),
    (.joinConstraint, phraseWords [["using"], ["on"]]),
      (.conjunction, phraseWords [["and"], ["or"]]),
    (.membership, phraseWords membershipPhrases), (.identifier, fun _ ↦ some 1)]

/-- The class of a token that starts with these words and the number of words it takes. -/
def classify (ws : List Text) : Option (Kind × Nat) :=
  wordClasses.findSome? fun c ↦ (c.2 ws).map (c.1, ·)

end Grammar
end QueryTemplate
