import QueryTemplate.Proofs.Token.Context
import QueryTemplate.Token.Nesting
namespace QueryTemplate

open Token Grammar

namespace Grammar

/-- Nothing after a text that starts with no letter continues a phrase. -/
theorem phraseRest_leadingWords {s : Text} (h : s.head?.any startsWord = false) :
    phraseRest (leadingWords s) = [] := by
  obtain ⟨us, hu⟩ := leadingWords_eq_cons s
  have hc : ∀ w ∈ continuations, w.head?.any startsWord = true := by decide
  rw [hu, phraseRest, List.takeWhile_cons_of_neg]
  intro hm
  have hw := hc _ (by simpa using hm)
  cases s with
  | nil => cases hw
  | cons c s =>
    by_cases hn : Text.isNameChar c = true
    · simp only [List.takeWhile_cons_of_pos hn, Text.lower_cons, List.head?_cons,
        Option.any_some] at hw h
      rw [startsWord_of_lower hw] at h
      cases h
    · simp [hn] at hw

end Grammar

/-- Tokens that are read from the text they make up. -/
def Lexed (ts : List Token) : Prop := scan (textOf ts) = ⟨ts, []⟩

@[simp] theorem lexed_nil : Lexed [] := scan_nil

theorem lexed_cons {t : Token} {ts : List Token} :
    Lexed (t :: ts) ↔ munch (t.text ++ textOf ts) = some (t, textOf ts) ∧ Lexed ts := by
  rw [Lexed, textOf_cons]
  cases h : munch (t.text ++ textOf ts) with
  | none => simp [scan_of_munch_none h]
  | some p =>
    obtain ⟨u, r⟩ := p
    obtain ⟨-, he⟩ := munch_eq_some h
    rw [scan_of_munch h, Scan.mk.injEq, List.cons.injEq]
    constructor
    · rintro ⟨⟨rfl, ht⟩, hr⟩
      obtain rfl : textOf ts = r := List.append_cancel_left he
      refine ⟨rfl, ?_⟩
      rw [Lexed, ← hr]
      exact congrArg (Scan.mk · _) ht
    · rintro ⟨e, hl⟩
      obtain ⟨rfl, rfl⟩ := Prod.mk.inj (Option.some.inj e)
      rw [Lexed] at hl
      simp [hl]

instance Lexed.decide : (ts : List Token) → Decidable (Lexed ts)
  | [] => .isTrue lexed_nil
  | _ :: ts => @decidable_of_iff' _ _ lexed_cons
      (@instDecidableAnd _ _ inferInstance (Lexed.decide ts))

theorem Lexed.tail {t : Token} {ts : List Token} (h : Lexed (t :: ts)) : Lexed ts :=
  (lexed_cons.1 h).2

theorem Lexed.suffix {a b : List Token} (h : Lexed (a ++ b)) : Lexed b := by
  induction a with
  | nil => exact h
  | cons t a ih => exact ih h.tail

theorem Lexed.text_ne_nil {t : Token} {ts : List Token} (h : Lexed (t :: ts)) : t.text ≠ [] :=
  (munch_eq_some (lexed_cons.1 h).1).1

theorem tokens?_eq_ok_iff {s : Text} {ts : List Token} :
    tokens? s = .ok ts ↔ textOf ts = s ∧ Lexed ts := by
  constructor
  · intro h
    have e := textOf_of_tokens? h
    subst e
    refine ⟨rfl, ?_⟩
    simp only [tokens?, atEnd] at h
    split at h
    · rename_i hr
      rw [Lexed, ← hr]
      exact congrArg (Scan.mk · _) (Except.ok.inj h)
    · cases h
  · rintro ⟨rfl, h⟩
    rw [tokens?, h]
    rfl

/-- Whether a token starts as a name does. -/
def Token.isWord (t : Token) : Bool := t.text.head?.any startsWord

/-- The words at the start of some tokens, in lower case. -/
def tokenWords : List Token → List Text
  | [] => []
  | t :: ts =>
    if t.isBlank then tokenWords ts
    else if t.isWord then leadingWords t.text ++ tokenWords ts
    else []

@[simp] theorem tokenWords_nil : tokenWords [] = [] := rfl

theorem tokenWords_blank {t : Token} (h : t.isBlank = true) (ts : List Token) :
    tokenWords (t :: ts) = tokenWords ts := by simp [tokenWords, h]

theorem tokenWords_word {t : Token} (hb : t.isBlank = false) (hw : t.isWord = true)
    (ts : List Token) :
    tokenWords (t :: ts) = leadingWords t.text ++ tokenWords ts := by simp [tokenWords, hb, hw]

theorem tokenWords_symbol {t : Token} (hb : t.isBlank = false) (hw : t.isWord = false)
    (ts : List Token) :
    tokenWords (t :: ts) = [] := by simp [tokenWords, hb, hw]

/-- The token `t` is read just before the text `s`. -/
def Token.ReadBefore (t : Token) (s : Text) : Prop := munch (t.text ++ s) = some (t, s)

theorem Lexed.readBefore {t : Token} {ts : List Token} (h : Lexed (t :: ts)) :
    t.ReadBefore (textOf ts) :=
  (lexed_cons.1 h).1

theorem munch_of_lexed {t : Token} {ts : List Token} (h : Lexed (t :: ts)) :
    munch (t.text ++ textOf ts) = some (⟨t.kind, t.text⟩, textOf ts) := (lexed_cons.1 h).1

theorem family_of_munch {u r : Text} {k : Kind} (h : munch (u ++ r) = some (⟨k, u⟩, r)) :
    ∃ c, u.head? = some c ∧ familyOf c = family k := by
  obtain ⟨as, b, bs, hc, hb, -⟩ := munch_eq_some_iff.1 h
  obtain ⟨c, s, e, hk⟩ := (starts_of_mem_classes (c := (k, b)) (by simp [hc])).start hb
  obtain ⟨d, u, rfl⟩ := List.exists_cons_of_ne_nil (munch_eq_some h).1
  obtain ⟨rfl, -⟩ := List.cons.inj e
  exact ⟨d, rfl, familyOf_of_startsKind hk⟩

theorem familyOf_eq_identifier_iff {c : Char} : familyOf c = .identifier ↔ startsWord c = true := by
  refine ⟨fun h ↦ ?_, familyOf_of_startsWord⟩
  cases hw : startsWord c with
  | true => rfl
  | false =>
    simp only [familyOf, hw] at h
    split at h
    · cases h
    · split at h
      · cases ‹false = true›
      · split at h <;> (try split at h) <;> (try split at h) <;> (try split at h) <;> cases h

theorem familyOf_eq_blank_iff {c : Char} : familyOf c = .blank ↔ Text.isBlank c = true := by
  refine ⟨fun h ↦ ?_, fun h ↦ by simp [familyOf, h]⟩
  cases hb : Text.isBlank c with
  | true => rfl
  | false =>
    simp only [familyOf, hb] at h
    split at h
    · cases ‹false = true›
    · split at h <;> (try split at h) <;> (try split at h) <;> (try split at h) <;>
        (try split at h) <;>
        cases h

theorem family_eq_blank_iff {k : Kind} : family k = .blank ↔ k = .blank := by cases k <;> simp [family]

namespace Token.ReadBefore

variable {t : Token} {s : Text}

theorem text_ne_nil (h : t.ReadBefore s) : t.text ≠ [] := (munch_eq_some h).1

theorem stops_word (h : t.ReadBefore s) (ht : t.isWord = true) : Text.Stops Text.isNameChar s :=
  stops_of_munch_word ht h

theorem leadingWords_append (h : t.ReadBefore s) (ht : t.isWord = true) {r : Text}
    (hr : Text.Stops Text.isNameChar r) :
    leadingWords (t.text ++ r) = leadingWords t.text ++ follow r := by
  obtain ⟨n, hk, hpast⟩ := (munch_word_iff ht).1 h
  exact (leadingWords_of_munch_word ht hk hpast hr).1

theorem isBlank_iff (h : t.ReadBefore s) : t.isBlank = true ↔
    t.text ≠ [] ∧ (∀ c ∈ t.text, Text.isBlank c = true) ∧ Text.Stops Text.isBlank s := by
  rw [Token.isBlank, decide_eq_true_eq]
  constructor
  · intro hk
    obtain ⟨k, u⟩ := t
    obtain rfl : k = .blank := hk
    exact munch_blank_iff.1 h
  · intro hb
    have := munch_blank_iff.2 hb
    rw [h] at this
    exact congrArg Token.kind (Prod.mk.inj (Option.some.inj this)).1

theorem isWord_iff (h : t.ReadBefore s) : t.isWord = true ↔ family t.kind = .identifier := by
  obtain ⟨c, hc, hf⟩ := family_of_munch h
  rw [Token.isWord, hc, Option.any_some, ← hf, familyOf_eq_identifier_iff]

theorem isBlank_iff_head (h : t.ReadBefore s) :
    t.isBlank = true ↔ t.text.head?.any Text.isBlank = true := by
  obtain ⟨c, hc, hf⟩ := family_of_munch h
  rw [Token.isBlank, decide_eq_true_eq, hc, Option.any_some, ← family_eq_blank_iff, ← hf,
    familyOf_eq_blank_iff]

theorem head_append (h : t.ReadBefore s) (r : Text) : (t.text ++ r).head? = t.text.head? := by
  obtain ⟨c, u, e⟩ := List.exists_cons_of_ne_nil h.text_ne_nil
  simp [e]

end Token.ReadBefore

namespace Lexed

variable {t : Token} {ts : List Token}

theorem stops_word (h : Lexed (t :: ts)) (ht : t.isWord = true) :
    Text.Stops Text.isNameChar (textOf ts) :=
  h.readBefore.stops_word ht

theorem isBlank_iff (h : Lexed (t :: ts)) : t.isBlank = true ↔
    t.text ≠ [] ∧ (∀ c ∈ t.text, Text.isBlank c = true) ∧ Text.Stops Text.isBlank (textOf ts) :=
  h.readBefore.isBlank_iff

theorem isWord_iff (h : Lexed (t :: ts)) : t.isWord = true ↔ family t.kind = .identifier :=
  h.readBefore.isWord_iff

theorem isBlank_iff_head (h : Lexed (t :: ts)) :
    t.isBlank = true ↔ t.text.head?.any Text.isBlank = true :=
  h.readBefore.isBlank_iff_head

theorem head_append (h : Lexed (t :: ts)) (r : Text) : (t.text ++ r).head? = t.text.head? :=
  h.readBefore.head_append r

end Lexed

/-- Tokens that are read in a row before the text `r`, whether or not `r` consists of tokens. -/
def Leads (r : Text) : List Token → Prop
  | [] => True
  | t :: ts => t.ReadBefore (textOf ts ++ r) ∧ Leads r ts

theorem leads_nil_iff {ts : List Token} : Leads [] ts ↔ Lexed ts := by
  induction ts with
  | nil => simp [Leads]
  | cons t ts ih => rw [lexed_cons, Leads, ih, List.append_nil, Token.ReadBefore]

/-- A text that adds nothing to the words of a phrase that ends before it. -/
structure EndsPhrase (r : Text) : Prop where
  blank : Text.Stops Text.isBlank r
  words : phraseRest (leadingWords r) = []

theorem endsPhrase_nil : EndsPhrase [] := ⟨Text.stops_nil _, phraseRest_leadingWords rfl⟩

/-- The words that can continue a phrase are those of the tokens that follow. -/
theorem Leads.phraseRest_follow {r : Text} (hr : EndsPhrase r) {ts : List Token} (h : Leads r ts)
    (hs : Text.Stops Text.isNameChar (textOf ts ++ r)) :
    phraseRest (follow (textOf ts ++ r)) = phraseRest (tokenWords ts) := by
  have hword : ∀ {ts : List Token}, Leads r ts → Text.Stops Text.isBlank (textOf ts ++ r) →
      (∀ t us, ts = t :: us → Text.Stops Text.isNameChar (textOf us ++ r) →
        phraseRest (follow (textOf us ++ r)) = phraseRest (tokenWords us)) →
      phraseRest (leadingWords (textOf ts ++ r)) = phraseRest (tokenWords ts) := by
    intro ts h hb ih
    cases ts with
    | nil => exact hr.words
    | cons t us =>
      have ht := h.1
      rw [textOf_cons, List.append_assoc] at hb ⊢
      have hnb : t.isBlank = false := by
        rw [Bool.eq_false_iff, Ne, ht.isBlank_iff_head, ← ht.head_append (textOf us ++ r),
          Option.any_eq_true]
        rintro ⟨c, hc, hbc⟩
        simp [hb c hc] at hbc
      cases hw : t.isWord with
      | true =>
        have hst := ht.stops_word hw
        rw [ht.leadingWords_append hw hst, tokenWords, hnb, hw]
        exact phraseRest_append (ih t us rfl hst)
      | false =>
        rw [phraseRest_leadingWords, tokenWords, hnb, hw]
        · rfl
        · rwa [ht.head_append]
  induction hn : ts.length using Nat.strongRecOn generalizing ts with
  | ind n ih =>
    cases ts with
    | nil =>
      have hc : r.head?.any Text.isBlank = false := by
        rw [Bool.eq_false_iff, Ne, Option.any_eq_true]
        rintro ⟨c, hc, hbc⟩
        simp [hr.blank c hc] at hbc
      rw [textOf_nil, List.nil_append, follow, hc]
      rfl
    | cons t us =>
      have ht := h.1
      rw [textOf_cons, List.append_assoc] at hs ⊢
      cases hb : t.isBlank with
      | true =>
        obtain ⟨hne, hall, hst⟩ := ht.isBlank_iff.1 hb
        obtain ⟨c, u, e⟩ := List.exists_cons_of_ne_nil hne
        have hc := hall c (by simp [e])
        have hf : follow (t.text ++ (textOf us ++ r)) = leadingWords (textOf us ++ r) := by
          rw [follow, Text.dropWhile_append_stops hall hst, if_pos]
          simp [e, hc]
        rw [hf, tokenWords, hb, hword h.2 hst]
        · rfl
        · rintro t' vs rfl hst'
          exact ih vs.length (by simp at hn; omega) h.2.2 hst' rfl
      | false =>
        have hw : t.isWord = false := by
          rw [Bool.eq_false_iff, Ne, Token.isWord, ← ht.head_append (textOf us ++ r),
            Option.any_eq_true]
          rintro ⟨c, hc, hw⟩
          have := hs c hc
          rw [isNameChar_of_startsWord hw] at this
          cases this
        have hc : (t.text ++ (textOf us ++ r)).head?.any Text.isBlank = false := by
          rw [Bool.eq_false_iff, Ne, ht.head_append, ← ht.isBlank_iff_head]
          simp [hb]
        rw [follow, hc, tokenWords, hb, hw]
        rfl

theorem phraseRest_follow {ts : List Token} (h : Lexed ts)
    (hs : Text.Stops Text.isNameChar (textOf ts)) :
    phraseRest (follow (textOf ts)) = phraseRest (tokenWords ts) := by
  have := (leads_nil_iff.2 h).phraseRest_follow endsPhrase_nil (by rwa [List.append_nil])
  rwa [List.append_nil] at this

theorem munch_point {r : Text} (h : Text.Stops Char.isDigit r) :
    munch (['.'] ++ r) = some (⟨.operator, ['.']⟩, r) := by
  rw [munch_operator_iff, operator_eq_some_iff]
  have htake : (['.'] ++ r).take 2 = '.' :: r.head?.toList := by cases r <;> simp
  have hp : ∀ w ∈ pairs, w.head? ≠ some '.' := by decide
  refine ⟨.inr ⟨by simp [singles], fun hm ↦ hp _ hm (by rw [htake]; rfl)⟩, ?_, number_point.2 h⟩
  exact comment_eq_none (by rw [htake]; simp) (by rw [htake]; simp)

/-- A slash reads alone before an asterisk only where no comment ends after it. -/
def SlashFree : List Token → Prop
  | [] => True
  | t :: ts => (t.text = ['/'] → ∀ x, textOf ts = '*' :: x → commentEnd x = none) ∧ SlashFree ts

/-- What lets a token before the tokens `b` be read before the tokens `b'` as well. -/
structure Fits (t : Token) (b b' : List Token) : Prop where
  word : t.isWord = true → Text.Stops Text.isNameChar (textOf b') ∧
    (leadingWords t.text ∈ fixedPhrases ∨ phraseRest (tokenWords b) = phraseRest (tokenWords b'))
  number : t.kind = .number → (textOf b).takeWhile isNumeric = (textOf b').takeWhile isNumeric ∨
    Text.Stops isNumeric (textOf b')
  symbol : t.isWord = false → t.kind ≠ .number → t.kind = .opening ∨
    t.kind = .operator ∧ t.text = ['.'] ∧ Text.Stops Char.isDigit (textOf b') ∨
    (textOf b').head? = (textOf b).head? ∨
    Delimited (textOf b') ∧ t.kind ≠ .blank ∧ t.kind ≠ .comment

theorem Lexed.exchange {t : Token} {b b' : List Token} (h : Lexed (t :: b)) (hb : Lexed b')
    (hf : Fits t b b') (hc : SlashFree (t :: b')) : Lexed (t :: b') := by
  refine lexed_cons.2 ⟨?_, hb⟩
  have hm := munch_of_lexed h
  cases hw : t.isWord with
  | true =>
    obtain ⟨hs, hp⟩ := hf.word hw
    refine munch_word_congr hw hm hs ?_
    rcases hp with hp | hp
    · exact classify_fixed hp _ _
    · refine classify_append_congr (leadingWords_ne_nil _) ?_
      rw [phraseRest_follow h.tail (h.stops_word hw), phraseRest_follow hb hs, hp]
  | false =>
    by_cases hn : t.kind = .number
    · rw [hn, munch_number_iff] at hm
      have := munch_number_iff.2 (number_congr hm (hf.number hn))
      rwa [← hn] at this
    · have hid : family t.kind ≠ .identifier := fun e ↦ by simp [h.isWord_iff.2 e] at hw
      rcases hf.symbol hw hn with ho | ⟨hk, ht, hs⟩ | hs
      · rw [ho, munch_opening_iff] at hm
        obtain ⟨k, u⟩ := t
        obtain rfl : k = .opening := ho
        exact munch_opening_iff.2 hm
      · obtain ⟨k, u⟩ := t
        obtain rfl : k = .operator := hk
        obtain rfl : u = ['.'] := ht
        exact munch_point hs
      · exact munch_symbol_congr (lexed_cons.1 h).1 hid hn hs hc.1

/-- Tokens that start alike for all that tokens before them can see. -/
structure SameStart (b b' : List Token) : Prop where
  head : (textOf b').head? = (textOf b).head?
  words : phraseRest (tokenWords b) = phraseRest (tokenWords b')
  numeric : (textOf b).takeWhile isNumeric = (textOf b').takeWhile isNumeric

/-- After the same token, only words and numbers can go on in different ways. -/
theorem sameStart_cons {t : Token} {b b' : List Token} (ht : t.text ≠ [])
    (hw : phraseRest (tokenWords b) = phraseRest (tokenWords b'))
    (hn : (textOf b).takeWhile isNumeric = (textOf b').takeWhile isNumeric) :
    SameStart (t :: b) (t :: b') := by
  obtain ⟨c, u, e⟩ := List.exists_cons_of_ne_nil ht
  refine ⟨by simp [e], ?_, ?_⟩
  · simp only [tokenWords]
    split
    · exact hw
    · split
      · exact phraseRest_append hw
      · rfl
  · rw [textOf_cons, textOf_cons, List.takeWhile_append, List.takeWhile_append, hn]

theorem SameStart.cons {b b' : List Token} (h : SameStart b b') {t : Token} (ht : t.text ≠ []) :
    SameStart (t :: b) (t :: b') := sameStart_cons ht h.words h.numeric

theorem Fits.of_sameStart {t : Token} {b b' : List Token} (h : Lexed (t :: b))
    (hs : SameStart b b') :
    Fits t b b' where
  word hw := ⟨stops_congr hs.head (h.stops_word hw), .inr hs.words⟩
  number _ := .inl hs.numeric
  symbol _ _ := .inr (.inr (.inl hs.head))

/-- What follows some tokens can be exchanged for tokens that start alike. -/
theorem Lexed.append_exchange {a b b' : List Token} (h : Lexed (a ++ b)) (hb : Lexed b')
    (hs : SameStart b b') (hc : SlashFree (a ++ b')) :
    Lexed (a ++ b') ∧ SameStart (a ++ b) (a ++ b') := by
  induction a with
  | nil => exact ⟨hb, hs⟩
  | cons t a ih =>
    obtain ⟨h₁, h₂⟩ := ih h.tail hc.2
    exact ⟨h.exchange h₁ (.of_sameStart h h₂) hc, h₂.cons h.text_ne_nil⟩

namespace Grammar

/-- No comment ends in a text if none ends in a text that differs from it only in its tail. -/
theorem commentEnd_append_none {u x x' : Text} (hx : commentEnd x = none → commentEnd x' = none)
    (hh : x'.head? = some '/' → x.head? = some '/' ∨ u.getLast? ≠ some '*')
    (h : commentEnd (u ++ x) = none) : commentEnd (u ++ x') = none := by
  induction u with
  | nil => exact hx h
  | cons c u ih =>
    by_cases hc : ∃ y, c = '*' ∧ u ++ x = '/' :: y
    · obtain ⟨y, rfl, hy⟩ := hc
      rw [List.cons_append, hy] at h
      cases h
    · have hc' : ∀ y, c = '*' → u ++ x' ≠ '/' :: y := by
        rintro y rfl e
        cases u with
        | cons d u =>
          obtain ⟨rfl, -⟩ := List.cons.inj e
          exact hc ⟨_, rfl, rfl⟩
        | nil =>
          rcases hh (by simpa using congrArg List.head? e) with h' | h'
          · obtain ⟨z, rfl⟩ := List.head?_eq_some_iff.1 h'
            exact hc ⟨z, rfl, rfl⟩
          · exact h' rfl
      rw [List.cons_append, commentEnd_cons (fun y h₁ h₂ ↦ hc ⟨y, h₁, h₂⟩)] at h
      rw [List.cons_append, commentEnd_cons hc']
      refine ih (fun e ↦ (hh e).imp id fun hl ↦ ?_) h
      cases u with
      | nil => simp
      | cons d u => simpa using hl

theorem commentEnd_none_of_munch {k : Kind} {y : Text}
    (h : munch (['/'] ++ '*' :: y) = some (⟨k, ['/']⟩, '*' :: y)) : commentEnd y = none := by
  cases hy : commentEnd y with
  | none => rfl
  | some z =>
    obtain ⟨p, rfl⟩ := splits_commentEnd.suffix hy
    have hc : comment ('/' :: '*' :: p ++ z) = some z := by
      have h₁ : lineComment ('/' :: '*' :: p ++ z) = none := rfl
      have h₂ : blockComment ('/' :: '*' :: p ++ z) = some z := hy
      simp only [comment, Recognizer.oneOf, List.findSome?_cons, h₁, h₂]
    have hm := munch_comment_iff.2 hc
    have e := (Prod.mk.inj (Option.some.inj (hm.symm.trans h))).2
    have := congrArg List.length e
    simp only [List.length_cons, List.length_append] at this
    omega

end Grammar

theorem Lexed.slashFree {ts : List Token} (h : Lexed ts) : SlashFree ts := by
  induction ts with
  | nil => trivial
  | cons t ts ih =>
    refine ⟨fun ht x hx ↦ ?_, ih h.tail⟩
    have hm := munch_of_lexed h
    rw [ht, hx] at hm
    exact commentEnd_none_of_munch hm

/-- Exchanging the end of some tokens opens no comment if no comment ends in the new end that did
not end in the old one. -/
theorem SlashFree.append {a b b' : List Token} (h : SlashFree (a ++ b)) (hb : SlashFree b')
    (hh : (textOf b').head? = (textOf b).head?)
    (hc : commentEnd (textOf b) = none → commentEnd (textOf b') = none)
    (hc' : commentEnd (textOf b).tail = none → commentEnd (textOf b').tail = none) :
    SlashFree (a ++ b') := by
  induction a with
  | nil => exact hb
  | cons t a ih =>
    refine ⟨fun ht x hx ↦ ?_, ih h.2⟩
    have hx : textOf (a ++ b') = '*' :: x := hx
    have key : ∀ y, textOf (a ++ b) = '*' :: y → commentEnd y = none → commentEnd x = none := by
      intro y hy hn
      rw [textOf_append] at hx hy
      cases ha : textOf a with
      | nil =>
        rw [ha, List.nil_append] at hx hy
        rw [hx, hy] at hc'
        exact hc' hn
      | cons c u =>
        rw [ha, List.cons_append] at hx hy
        obtain ⟨rfl, rfl⟩ := List.cons.inj hx
        obtain ⟨-, rfl⟩ := List.cons.inj hy
        exact commentEnd_append_none hc (fun h ↦ .inl (hh ▸ h)) hn
    have hhead : (textOf (a ++ b)).head? = some '*' := by
      have := congrArg List.head? hx
      rw [textOf_append] at this ⊢
      cases ha : textOf a with
      | nil =>
        rw [ha, List.nil_append] at this
        rw [List.nil_append, ← hh, this]
        rfl
      | cons c u => simpa [ha] using this
    obtain ⟨y, hy⟩ := List.head?_eq_some_iff.1 hhead
    exact key y hy (h.1 ht y hy)

theorem tokenWords_append {a b : List Token} (h : phraseRest (tokenWords b) = []) :
    phraseRest (tokenWords (a ++ b)) = phraseRest (tokenWords a) := by
  induction a with
  | nil => exact h
  | cons t a ih =>
    rw [List.cons_append]
    cases hb : t.isBlank with
    | true => rw [tokenWords_blank hb, tokenWords_blank hb, ih]
    | false =>
      cases hw : t.isWord with
      | true => rw [tokenWords_word hb hw, tokenWords_word hb hw, phraseRest_append ih]
      | false => rw [tokenWords_symbol hb hw, tokenWords_symbol hb hw]

/-- A text that no token but a blank one or a comment would take a part of: it starts with a
delimiter other than a point. -/
def Sealed (r : Text) : Prop := Delimited r ∧ r.head? ≠ some '.'

theorem Sealed.stops {p : Char → Bool} (hp : ∀ c, isDelimiter c = true → c ≠ '.' → p c = false)
    {r : Text} (h : Sealed r) : Text.Stops p r := fun c hc ↦ hp c (h.1 c hc) fun e ↦ h.2 (e ▸ hc)

theorem Sealed.stops_numeric {r : Text} (h : Sealed r) : Text.Stops isNumeric r := by
  refine h.stops fun c hc hn ↦ ?_
  rcases isDelimiter_iff.1 hc with
    (rfl | rfl | rfl | rfl) | rfl | rfl | rfl | rfl | rfl | rfl | rfl <;>
    first | rfl | exact absurd rfl hn

theorem stops_name_of_delimited {r : Text} (h : Delimited r) : Text.Stops Text.isNameChar r := by
  refine stops_of_delimited (fun c hc ↦ ?_) h
  rcases isDelimiter_iff.1 hc with
    (rfl | rfl | rfl | rfl) | rfl | rfl | rfl | rfl | rfl | rfl | rfl <;> rfl

theorem sealed_nil : Sealed [] := ⟨(fun _ h ↦ by cases h), by decide⟩

theorem sealed_blank {c : Char} (h : Text.isBlank c = true) (r : Text) : Sealed (c :: r) := by
  rcases isBlank_iff.1 h with rfl | rfl | rfl | rfl <;> exact ⟨by simp [Delimited, isDelimiter, Text.isBlank], by simp⟩

theorem sameStart_append {t : Token} {a b : List Token} (ha : Lexed (t :: a))
    (hs : Sealed (textOf b)) (hw : phraseRest (tokenWords b) = []) :
    SameStart (t :: a) (t :: a ++ b) := by
  refine ⟨?_, (tokenWords_append hw).symm, ?_⟩
  · rw [List.cons_append, textOf_cons, textOf_cons, ha.head_append, ha.head_append]
  · rw [textOf_append, Text.takeWhile_append_of_stops hs.stops_numeric]

/-- Tokens may be followed by others that start with a delimiter and continue no phrase. -/
theorem Lexed.append {a b : List Token} (ha : Lexed a) (hb : Lexed b) (hs : Sealed (textOf b))
    (hw : phraseRest (tokenWords b) = [])
    (hl : ∀ t ∈ a.getLast?, t.kind ≠ .blank ∧ t.kind ≠ .comment) (hc : SlashFree (a ++ b)) :
    Lexed (a ++ b) := by
  induction a with
  | nil => exact hb
  | cons t a ih =>
    cases a with
    | nil =>
      obtain ⟨h₁, h₂⟩ := hl t rfl
      refine ha.exchange hb ⟨fun _ ↦ ⟨stops_name_of_delimited hs.1, .inr hw.symm⟩,
        fun _ ↦ .inr hs.stops_numeric,
        fun _ _ ↦ .inr (.inr (.inr ⟨hs.1, h₁, h₂⟩))⟩ hc
    | cons u a =>
      have h := ih ha.tail (by simpa using hl) hc.2
      exact ha.exchange h (.of_sameStart ha (sameStart_append ha.tail hs hw)) hc

/-- Whether a slash stands just before an asterisk. -/
def opensComment : List Token → Bool
  | [] => false
  | t :: ts => (t.text = ['/'] && (textOf ts).head? = some '*') || opensComment ts

theorem slashFree_append {a b : List Token} (ha : opensComment a = false) (hb : SlashFree b)
    (hs : (textOf b).head? ≠ some '*') : SlashFree (a ++ b) := by
  induction a with
  | nil => exact hb
  | cons t a ih =>
    simp only [opensComment, Bool.or_eq_false_iff, Bool.and_eq_false_iff,
      decide_eq_false_iff_not] at ha
    refine ⟨fun ht x hx ↦ ?_, ih ha.2⟩
    refine absurd ?_ (ha.1.resolve_left (fun h ↦ h ht))
    have hx : textOf (a ++ b) = '*' :: x := hx
    rw [textOf_append] at hx
    cases e : textOf a with
    | nil =>
      rw [e, List.nil_append] at hx
      exact absurd (hx ▸ rfl) hs
    | cons c u =>
      rw [e] at hx
      exact congrArg some (List.cons.inj hx).1

end QueryTemplate
