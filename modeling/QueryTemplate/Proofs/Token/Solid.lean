import QueryTemplate.Proofs.Token.Keyword
namespace QueryTemplate
namespace Recognizer

/-- What is matched ends in a character of the class `p`. -/
structure Ends (p : Char → Bool) (a : Recognizer) : Prop extends Splits a where
  last : ∀ {u r : Text}, a (u ++ r) = some r → ∀ c ∈ u.getLast?, p c = true

variable {p q : Char → Bool}

theorem Splits.append {a : Recognizer} (h : Splits a) {u r s : Text} {b : Recognizer}
    (hb : Splits b) (ha : a (u ++ r) = some s) (hs : b s = some r) :
    ∃ v w, u = v ++ w ∧ s = w ++ r := by
  obtain ⟨v, e⟩ := h.suffix ha
  obtain ⟨w, rfl⟩ := hb.suffix hs
  refine ⟨v, w, ?_, rfl⟩
  rw [← List.append_assoc] at e
  exact (List.append_cancel_right e).symm

theorem Ends.seq {a b : Recognizer} (ha : Ends p a) (hb : Ends p b) : Ends p (a.seq b) where
  toSplits := ha.toSplits.seq hb.toSplits
  last {u r} h := by
    obtain ⟨s, h₁, h₂⟩ := Option.bind_eq_some_iff.1 h
    obtain ⟨v, w, rfl, rfl⟩ := ha.toSplits.append hb.toSplits h₁ h₂
    rw [List.append_assoc] at h₁
    intro c hc
    rw [List.getLast?_append] at hc
    cases hw : w.getLast? with
    | none =>
      rw [hw, Option.none_or] at hc
      exact ha.last h₁ c hc
    | some d =>
      rw [hw, Option.some_or] at hc
      exact hb.last h₂ c (hw ▸ hc)

theorem Ends.seq_consumes {a b : Recognizer} (ha : Splits a) (hb : Ends p b) (hc : Consumes b) :
    Ends p (a.seq b) where
  toSplits := ha.seq hb.toSplits
  last {u r} h := by
    obtain ⟨s, h₁, h₂⟩ := Option.bind_eq_some_iff.1 h
    obtain ⟨v, w, rfl, rfl⟩ := ha.append hb.toSplits h₁ h₂
    intro c hm
    have hw : w ≠ [] := by
      rintro rfl
      exact Nat.lt_irrefl _ (hc.shorter h₂)
    rw [List.getLast?_append, List.getLast?_eq_some_getLast hw, Option.some_or] at hm
    exact hb.last h₂ c (by rwa [List.getLast?_eq_some_getLast hw])

theorem Ends.oneOf {rs : List Recognizer} (h : ∀ r ∈ rs, Ends p r) : Ends p (oneOf rs) where
  suffix e := by
    obtain ⟨r, hr, hs⟩ := List.exists_of_findSome?_eq_some e
    exact (h r hr).suffix hs
  last e := by
    obtain ⟨r, hr, hs⟩ := List.exists_of_findSome?_eq_some e
    exact (h r hr).last hs

theorem Ends.maybe {a : Recognizer} (h : Ends p a) : Ends p (maybe a) where
  toSplits := .maybe h.toSplits
  last {u r} e := by
    simp only [Recognizer.maybe, Option.some.injEq] at e
    cases ha : a (u ++ r) with
    | none =>
      rw [ha, Option.getD_none] at e
      obtain rfl : u = [] := List.append_left_eq_self.1 e
      simp
    | some s =>
      rw [ha, Option.getD_some] at e
      exact h.last (e ▸ ha)

theorem Ends.notAhead (a : Recognizer) : Ends p (notAhead a) where
  toSplits := .notAhead a
  last {u r} e := by
    simp only [Recognizer.notAhead] at e
    split at e
    · cases e
    · obtain rfl : u = [] := List.append_left_eq_self.1 (Option.some.inj e)
      simp

theorem Ends.one (h : ∀ c, q c = true → p c = true) : Ends p (one q) where
  toSplits := (Consumes.one q).toSplits
  last e := by
    obtain ⟨c, hc, rfl⟩ := Grammar.one_append_iff.1 e
    intro d hd
    obtain rfl : c = d := by simpa using hd
    exact h c hc

theorem Ends.many (h : ∀ c, q c = true → p c = true) : Ends p (many q) where
  toSplits := .many q
  last {u r} e := by
    have hs := List.takeWhile_append_dropWhile (p := q) (l := u ++ r)
    rw [Recognizer.many, Option.some.injEq] at e
    rw [e] at hs
    intro c hc
    rw [← List.append_cancel_right hs] at hc
    exact h c (Text.mem_takeWhile (List.mem_of_getLast? hc))

theorem Ends.exactly {w : Text} (h : ∀ c ∈ w.getLast?, p c = true) : Ends p (exactly w) where
  suffix e := Text.afterPrefix?_eq_some_iff.1 e ▸ List.suffix_append _ _
  last e := by
    have := Text.afterPrefix?_eq_some_iff.1 e
    obtain rfl := List.append_cancel_right this
    exact h

theorem Ends.word (hp : ∀ c, Text.isNameChar c = true → p c = true) {w : Text}
    (h : ∀ c ∈ w, Text.isNameChar c = true) : Ends p (word w) where
  toSplits := .word w
  last {u r} e := by
    obtain ⟨v, hv, rfl⟩ := word_eq_some_iff.1 e
    obtain rfl := List.append_cancel_right hv
    intro c hc
    have hm : c.toLower ∈ Text.lower u := List.mem_map_of_mem (List.mem_of_getLast? hc)
    exact hp c (Text.isNameChar_of_toLower (h _ hm))

theorem Ends.phrase (hp : ∀ c, Text.isNameChar c = true → p c = true) {ws : List Text}
    (h : ∀ w ∈ ws, w ≠ [] ∧ ∀ c ∈ w, Text.isNameChar c = true) : Ends p (phrase ws) := by
  induction ws with
  | nil =>
    refine ⟨⟨fun e ↦ Option.some.inj e ▸ List.suffix_rfl⟩, fun {u r} e ↦ ?_⟩
    obtain rfl : u = [] := List.append_left_eq_self.1 (Option.some.inj e)
    simp
  | cons w ws ih =>
    have hw := h w List.mem_cons_self
    have ih := ih fun v hv ↦ h v (List.mem_cons_of_mem _ hv)
    cases ws with
    | nil => exact .word hp hw.2
    | cons v ws =>
      have hv : Consumes (Recognizer.phrase (v :: ws)) :=
        .phrase ⟨v, rfl, (h v (List.mem_cons_of_mem _ List.mem_cons_self)).1⟩
      exact .seq_consumes (.word w) (.seq_consumes Consumes.gap.toSplits ih hv)
        (Consumes.gap.seq hv.toSplits)

theorem Ends.phrases (hp : ∀ c, Text.isNameChar c = true → p c = true) {ps : List (List Text)}
    (h : ∀ x ∈ ps, ∀ w ∈ x, w ≠ [] ∧ ∀ c ∈ w, Text.isNameChar c = true) :
    Ends p (Recognizer.oneOf (ps.map Recognizer.phrase)) := by
  refine .oneOf fun r hr ↦ ?_
  obtain ⟨x, hx, rfl⟩ := List.mem_map.1 hr
  exact .phrase hp (h x hx)

end Recognizer

namespace Grammar

open Recognizer

theorem quotedRest_eq_some {q : Char} {b : Bool} {s t : Text} (h : quotedRest q b s = some t) :
    ∃ y, s = y ++ q :: t := by
  fun_induction quotedRest q b s with
  | case1 => cases h
  | case2 =>
    obtain rfl := Option.some.inj h
    exact ⟨[], by simp_all⟩
  | case3 => cases h
  | case4 d s ih =>
    obtain ⟨y, rfl⟩ := ih h
    exact ⟨_ :: d :: y, rfl⟩
  | case5 d s _ _ ih =>
    obtain ⟨y, rfl⟩ := ih h
    exact ⟨_ :: d :: y, rfl⟩
  | case6 =>
    obtain rfl := Option.some.inj h
    exact ⟨[], by simp_all⟩
  | case7 c d s _ _ ih =>
    obtain ⟨y, e⟩ := ih h
    exact ⟨c :: y, by rw [e]; rfl⟩

theorem ends_quoted {p : Char → Bool} {q : Char} (hq : p q = true) (b : Bool) :
    Ends p (quoted q b) := by
  refine .seq_consumes (Consumes.one _).toSplits ⟨splits_quotedRest q b, fun {u r} h ↦ ?_⟩
    ⟨splits_quotedRest q b, fun h ↦ ?_⟩
  · obtain ⟨y, e⟩ := quotedRest_eq_some h
    rw [← List.singleton_append, ← List.append_assoc] at e
    obtain rfl := List.append_cancel_right e
    simpa using hq
  · obtain ⟨y, rfl⟩ := quotedRest_eq_some h
    simp +arith

theorem isNameChar_of_isDigit {c : Char} (h : c.isDigit = true) : Text.isNameChar c = true := by
  simp [Text.isNameChar, Char.isAlphanum, h]

theorem isNameChar_of_isHexDigit {c : Char} (h : isHexDigit c = true) :
    Text.isNameChar c = true := by
  simp only [isHexDigit, Char.isDigit, ge_iff_le, Bool.or_eq_true, Bool.and_eq_true,
    decide_eq_true_eq, Char.le_def, UInt32.le_iff_toNat_le, UInt32.reduceToNat, Char.reduceVal] at h
  simp only [Text.isNameChar, Char.isAlphanum, Char.isDigit, ge_iff_le, Bool.or_eq_true,
    Bool.and_eq_true, decide_eq_true_eq, Text.isAlpha_iff, UInt32.le_iff_toNat_le,
    UInt32.reduceToNat, Char.reduceVal]
  omega

/-- The characters that a token of a class may end with. -/
def endsKind : Kind → Char → Bool
  | .blank, _ | .comment, _ => true
  | .string, c => c = '\'' || c = '`' || c = '"'
  | .number, c => Text.isNameChar c || c = '.'
  | .placeholder, c => Text.isNameChar c || c = '$' || c = '}'
  | .operator, c => operators.any (·.getLast? = some c)
  | .opening, c => c = '(' || c = '['
  | .closing, c => c = ')' || c = ']'
  | .punctuation, c => c = ',' || c = ':' || c = '?' || c = ';' || c = '{' || c = '}'
  | _, c => Text.isNameChar c

theorem ends_number : Ends (endsKind .number) number := by
  have hname : ∀ c, Text.isNameChar c = true → endsKind .number c = true :=
    fun c hc ↦ by simp [endsKind, hc]
  have hd := fun c h ↦ hname c (isNameChar_of_isDigit h)
  have hh := fun c h ↦ hname c (isNameChar_of_isHexDigit h)
  have hdigits : Ends (endsKind .number) digits := (Ends.one hd).seq (.many hd)
  have hpoint : Ends (endsKind .number) (exactly ".") := .exactly (by decide)
  have hexp : Ends (endsKind .number) exponent := by
    refine .seq_consumes (Splits.word _)
      (.seq_consumes (.maybe (Consumes.one _).toSplits) hdigits (.many1 _))
      ((Splits.maybe (Consumes.one _).toSplits).seq_consumes (.many1 _))
  refine .oneOf fun r hr ↦ ?_
  simp only [List.mem_cons, List.not_mem_nil, or_false] at hr
  rcases hr with rfl | rfl | rfl | rfl | rfl
  · exact (Ends.exactly (by decide)).seq ((Ends.one hh).seq (.many hh))
  · exact hdigits.seq (hpoint.seq ((Ends.many hd).seq (.maybe hexp)))
  · exact hpoint.seq (hdigits.seq (.maybe hexp))
  · exact hdigits.seq hexp
  · exact hdigits

theorem ends_of_mem_classes {k : Kind} {a : Recognizer} (h : (k, a) ∈ classes) (hb : k ≠ .blank)
    (hc : k ≠ .comment) : Ends (endsKind k) a := by
  have hopt : ∀ ps : List (List Text),
    (∀ x ∈ ps, x ≠ [] ∧ ∀ w ∈ x, w ≠ [] ∧ ∀ c ∈ w, Text.isNameChar c = true) →
      Splits (optional ps) := fun ps h ↦ splits_optional fun x hx ↦ by
    obtain ⟨w, ws, rfl⟩ := List.exists_cons_of_ne_nil (h x hx).1
    exact ⟨w, rfl, ((h _ hx).2 w List.mem_cons_self).1⟩
  simp only [classes, List.mem_cons, List.not_mem_nil, or_false, Prod.mk.injEq] at h
  rcases h with ⟨rfl, rfl⟩ | ⟨rfl, rfl⟩ | ⟨rfl, rfl⟩ | ⟨rfl, rfl⟩ | ⟨rfl, rfl⟩ | ⟨rfl, rfl⟩ | ⟨rfl,
    rfl⟩ |
    ⟨rfl, rfl⟩ | ⟨rfl, rfl⟩ | ⟨rfl, rfl⟩ | ⟨rfl, rfl⟩ | ⟨rfl, rfl⟩ | ⟨rfl, rfl⟩ | ⟨rfl, rfl⟩ | ⟨rfl,
      rfl⟩ |
    ⟨rfl, rfl⟩
  · exact absurd rfl hb
  · exact absurd rfl hc
  · have hn : ∀ w ∈ aggregationNames, ∀ c ∈ w.getLast?, Text.isNameChar c = true := by decide
    refine .seq_consumes (Consumes.exactly (by simp)).toSplits
      (Ends.seq (.oneOf fun r hr ↦ ?_) (.notAhead _))
      ((Consumes.texts (by simp [aggregationNames])).seq .boundary)
    obtain ⟨w, hw, rfl⟩ := List.mem_map.1 hr
    exact .exactly (hn w hw)
  · refine (Ends.oneOf fun r hr ↦ ?_).seq (.notAhead _)
    rcases List.mem_append.1 hr with hr | hr
    · obtain ⟨x, hx, rfl⟩ := List.mem_map.1 hr
      have hl : ∀ x ∈ clausePhrases, ∀ w ∈ x, w ≠ [] ∧ ∀ c ∈ w, Text.isNameChar c = true := by
        decide
      exact .phrase (fun _ h ↦ h) (hl x hx)
    · obtain rfl := List.mem_singleton.1 hr
      exact (Ends.word (fun _ h ↦ h) (by decide)).seq (.notAhead _)
  · have hj : Ends (endsKind .join) ((Recognizer.word "join").seq boundary) :=
      (Ends.word (fun _ h ↦ h) (by decide)).seq (.notAhead _)
    have hc : Consumes ((Recognizer.word "join").seq boundary) :=
      (Consumes.word (by simp)).seq .boundary
    have h₁ := hopt joinModifiers (by decide)
    have h₂ := hopt joinKinds (by decide)
    have h₃ := hopt joinStrictness (by decide)
    have h₄ := hopt [["global"]] (by decide)
    have c₁ := h₁.seq_consumes hc
    have c₂ := h₂.seq_consumes c₁
    have e₁ := Ends.seq_consumes h₁ hj hc
    have e₂ := Ends.seq_consumes h₂ e₁ c₁
    have e₃ := Ends.seq_consumes h₃ e₂ c₂
    have e₄ := Ends.seq_consumes h₄ e₃ (h₃.seq_consumes c₂)
    exact e₄
  · refine (Ends.oneOf fun r hr ↦ ?_).seq (.notAhead _)
    simp only [List.mem_cons, List.not_mem_nil, or_false] at hr
    rcases hr with rfl | rfl <;> exact .word (fun _ h ↦ h) (by decide)
  · refine (Ends.oneOf fun r hr ↦ ?_).seq (.notAhead _)
    simp only [List.mem_cons, List.not_mem_nil, or_false] at hr
    rcases hr with rfl | rfl <;> exact .word (fun _ h ↦ h) (by decide)
  · exact (Ends.phrases (fun _ h ↦ h) (by decide)).seq (.notAhead _)
  · refine .oneOf fun r hr ↦ ?_
    have hd : ∀ c, (Text.isNameChar c || c = '$' : Bool) = true →
        endsKind .placeholder c = true := by
      intro c hc
      simp only [endsKind, hc, Bool.true_or]
    simp only [List.mem_cons, List.not_mem_nil, or_false] at hr
    rcases hr with rfl | rfl
    · exact .seq_consumes (Consumes.exactly (by simp)).toSplits
        (.seq_consumes (.many _) (.exactly (by decide)) (.exactly (by simp)))
        ((Splits.many _).seq_consumes (.exactly (by simp)))
    · exact (Ends.exactly (by decide)).seq ((Ends.one hd).seq (.many hd))
  · refine .oneOf fun r hr ↦ ?_
    simp only [List.mem_cons, List.not_mem_nil, or_false] at hr
    rcases hr with rfl | rfl | rfl <;> exact ends_quoted (by decide) _
  · exact ends_number
  · refine (Ends.one fun c hc ↦ ?_).seq (.many fun _ h ↦ h)
    simp only [Bool.or_eq_true, decide_eq_true_eq] at hc
    rcases hc with hc | rfl
    · simp [endsKind, Text.isNameChar, Char.isAlphanum, hc]
    · rfl
  · refine .oneOf fun r hr ↦ ?_
    obtain ⟨w, hw, rfl⟩ := List.mem_map.1 hr
    exact .exactly fun c hc ↦ List.any_eq_true.2 ⟨w, hw, by simpa using hc⟩
  all_goals exact .one fun _ h ↦ h

theorem isSpace_of_startsKind {k : Kind} {c : Char} (h : startsKind k c = true) (hk : k ≠ .blank) :
    Text.isSpace c = false := by
  have hop : ∀ w ∈ operators, ∀ c ∈ w.head?, Text.isSpace c = false := by decide
  cases k with
  | blank => exact absurd rfl hk
  | number =>
    simp only [startsKind, Bool.or_eq_true, decide_eq_true_eq] at h
    rcases h with h | rfl
    · exact Text.isSpace_of_isNameChar (isNameChar_of_isDigit h)
    · rfl
  | operator =>
    obtain ⟨w, hw, hc⟩ := List.any_eq_true.1 h
    exact hop w hw c (by simpa using hc)
  | clause | join | joinConstraint | conjunction | membership | identifier =>
    exact Text.isSpace_of_isNameChar (isNameChar_of_startsWord h)
  | comment | aggregation | placeholder | string | opening | closing | punctuation =>
    simp only [startsKind, Bool.or_eq_true, decide_eq_true_eq, or_assoc] at h
    rcases h with rfl | rfl | rfl | rfl | rfl | rfl <;> rfl

theorem isSpace_of_endsKind {k : Kind} {c : Char} (h : endsKind k c = true) (hb : k ≠ .blank)
    (hc : k ≠ .comment) : Text.isSpace c = false := by
  have hop : ∀ w ∈ operators, ∀ c ∈ w.getLast?, Text.isSpace c = false := by decide
  cases k with
  | blank => exact absurd rfl hb
  | comment => exact absurd rfl hc
  | operator =>
    obtain ⟨w, hw, hc⟩ := List.any_eq_true.1 h
    exact hop w hw c (by simpa using hc)
  | clause | join | joinConstraint | conjunction | membership | identifier | aggregation =>
    exact Text.isSpace_of_isNameChar h
  | number | placeholder =>
    simp only [endsKind, Bool.or_eq_true, decide_eq_true_eq, or_assoc] at h
    rcases h with h | rfl | rfl
    · exact Text.isSpace_of_isNameChar h
    all_goals rfl
  | string | opening | closing | punctuation =>
    simp only [endsKind, Bool.or_eq_true, decide_eq_true_eq, or_assoc] at h
    rcases h with rfl | rfl | rfl | rfl | rfl | rfl <;> rfl

end Grammar

open Grammar

/-- A token that is read from some text. -/
def Lexical (t : Token) : Prop := ∃ ts, Lexed (t :: ts)

variable {t : Token} {ts : List Token}

theorem Lexed.lexical (h : Lexed ts) : ∀ t ∈ ts, Lexical t := by
  induction ts with
  | nil => simp
  | cons t ts ih => exact List.forall_mem_cons.2 ⟨⟨ts, h⟩, ih h.tail⟩

namespace Lexical

theorem text_ne_nil (h : Lexical t) : t.text ≠ [] := h.choose_spec.text_ne_nil

theorem startsKind (h : Lexical t) : ∀ c ∈ t.text.head?, startsKind t.kind c = true := by
  obtain ⟨ts, h⟩ := h
  obtain ⟨as, b, bs, hc, hb, -⟩ := munch_eq_some_iff.1 (munch_of_lexed h)
  have hm : (t.kind, b) ∈ classes := by simp [hc]
  obtain ⟨c, r, hs, hk⟩ := (starts_of_mem_classes hm).start hb
  intro d hd
  obtain ⟨u, hu⟩ := List.head?_eq_some_iff.1 hd
  rw [hu] at hs
  obtain ⟨rfl, -⟩ := List.cons.inj hs
  exact hk

theorem endsKind (h : Lexical t) (hb : t.kind ≠ .blank) (hc : t.kind ≠ .comment) :
    ∀ c ∈ t.text.getLast?, endsKind t.kind c = true := by
  obtain ⟨ts, h⟩ := h
  obtain ⟨as, b, bs, hcl, hm, -⟩ := munch_eq_some_iff.1 (munch_of_lexed h)
  exact (ends_of_mem_classes (by rw [hcl]; simp) hb hc).last hm

theorem operator (h : Lexical t) (hk : t.kind = .operator) : t.text ∈ pairs ++ singles := by
  obtain ⟨ts, h⟩ := h
  obtain ⟨k, u⟩ := t
  obtain rfl : k = .operator := hk
  have ho := (munch_operator_iff.1 (munch_of_lexed h)).1
  exact List.mem_append.2 ((operator_eq_some_iff.1 ho).imp_right And.left)

theorem opening (h : Lexical t) (hk : t.kind = .opening) : t.text = ['('] ∨ t.text = ['['] := by
  obtain ⟨ts, h⟩ := h
  obtain ⟨k, u⟩ := t
  obtain rfl : k = .opening := hk
  exact munch_opening_iff.1 (munch_of_lexed h)

theorem closing (h : Lexical t) (hk : t.kind = .closing) : t.text = [')'] ∨ t.text = [']'] := by
  obtain ⟨ts, h⟩ := h
  obtain ⟨k, u⟩ := t
  obtain rfl : k = .closing := hk
  exact munch_closing_iff.1 (munch_of_lexed h)

end Lexical

/-- No white space is at either end. -/
structure Solid (s : Text) : Prop where
  head : ∀ c ∈ s.head?, Text.isSpace c = false
  last : ∀ c ∈ s.getLast?, Text.isSpace c = false

theorem Lexical.solid (h : Lexical t) (hb : t.kind ≠ .blank) (hc : t.kind ≠ .comment) :
    Solid t.text where
  head c hm := isSpace_of_startsKind (h.startsKind c hm) hb
  last c hm := isSpace_of_endsKind (h.endsKind hb hc c hm) hb hc

theorem Solid.trimEnd {s : Text} (h : Solid s) : Text.trimEnd s = s := by
  cases hs : s.reverse with
  | nil =>
    obtain rfl := List.reverse_eq_nil_iff.1 hs
    rfl
  | cons c u =>
    have hc : s.getLast? = some c := by rw [List.getLast?_eq_head?_reverse, hs, List.head?_cons]
    rw [Text.trimEnd, hs, List.dropWhile_cons_of_neg (by simp [h.last c hc]), ← hs,
      List.reverse_reverse]

theorem Solid.trim {s : Text} (h : Solid s) : Text.trim s = s := by
  rw [Text.trim, h.trimEnd, Text.trimStart]
  cases s with
  | nil => rfl
  | cons c u => rw [List.dropWhile_cons_of_neg (by simp [h.head c rfl])]

theorem Solid.append {s u : Text} (hs : Solid s) (hu : Solid u) : Solid (s ++ u) where
  head c hc := by
    rw [List.head?_append] at hc
    cases h : s.head? with
    | none => exact hu.head c (by rwa [h] at hc)
    | some d => exact hs.head c (by rw [h] at hc ⊢; exact hc)
  last c hc := by
    rw [List.getLast?_append] at hc
    cases h : u.getLast? with
    | none => exact hs.last c (by rwa [h] at hc)
    | some d => exact hu.last c (by rw [h] at hc ⊢; exact hc)

end QueryTemplate
