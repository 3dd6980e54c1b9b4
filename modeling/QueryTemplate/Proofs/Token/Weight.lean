import Mathlib.Algebra.Ring.Int.Defs
import QueryTemplate.Proofs.Token.Tally
namespace QueryTemplate

open Token Grammar Recognizer

variable {lines : Bool} {c : Char} {s r u v w x y z : Text} {n m : Int} {b : Bool} {t : Token}
    {ts : List Token}

/-- How many parentheses a token opens, less those it closes. -/
def Token.weight (t : Token) : Int := if t.isOpenParen then 1 else if t.isCloseParen then -1 else 0

theorem weight_of_kind (h : t.kind ≠ .opening) (h' : t.kind ≠ .closing) : t.weight = 0 := by
  simp [weight, isOpenParen, isCloseParen, h, h']

/-- A text that counts for nothing, whatever follows it. -/
def Inert (u : Text) : Prop := ∀ lines x, tally lines (u ++ x) = tally lines x

theorem inert_of_loose (h : ∀ c ∈ u, isLoose c = true) : Inert u := fun _ _ ↦ tally_loose_append h

theorem Inert.append (hu : Inert u) (hv : Inert v) : Inert (u ++ v) := by
  intro lines x
  rw [List.append_assoc, hu, hv]

/-- What a recognizer takes counts for nothing. -/
structure Skips (a : Recognizer) : Prop extends Splits a where
  inert : ∀ {u r}, a (u ++ r) = some r → Inert u

namespace Skips

variable {a a' : Recognizer} {p : Char → Bool}

theorem seq (h : Skips a) (h' : Skips a') : Skips (a.seq a') where
  toSplits := h.toSplits.seq h'.toSplits
  inert hr := by
    obtain ⟨s, h₁, h₂⟩ := Option.bind_eq_some_iff.1 hr
    obtain ⟨v, w, rfl, rfl⟩ := h.toSplits.append h'.toSplits h₁ h₂
    rw [List.append_assoc] at h₁
    exact (h.inert h₁).append (h'.inert h₂)

theorem oneOf {as : List Recognizer} (h : ∀ a ∈ as, Skips a) : Skips (oneOf as) where
  suffix hr := by
    obtain ⟨a, ha, hr⟩ := List.exists_of_findSome?_eq_some hr
    exact (h a ha).suffix hr
  inert hr := by
    obtain ⟨a, ha, hr⟩ := List.exists_of_findSome?_eq_some hr
    exact (h a ha).inert hr

theorem maybe (h : Skips a) : Skips (maybe a) where
  toSplits := .maybe h.toSplits
  inert {u r} hr := by
    rw [Recognizer.maybe, Option.some.injEq] at hr
    cases hs : a (u ++ r) with
    | some s =>
      rw [hs, Option.getD_some] at hr
      exact h.inert (hs.trans (congrArg some hr))
    | none =>
      rw [hs, Option.getD_none] at hr
      obtain rfl : u = [] := by simpa using hr
      exact inert_of_loose (List.forall_mem_nil _)

theorem one (hp : ∀ c, p c = true → isLoose c = true) : Skips (one p) where
  toSplits := (Consumes.one p).toSplits
  inert hr := by
    obtain ⟨c, hc, rfl⟩ := one_append_iff.1 hr
    exact inert_of_loose fun d hd ↦ hp d (List.mem_singleton.1 hd ▸ hc)

theorem many (hp : ∀ c, p c = true → isLoose c = true) : Skips (many p) where
  toSplits := .many p
  inert {u r} hr := by
    have e := List.takeWhile_append_dropWhile (p := p) (l := u ++ r)
    rw [Option.some.inj hr] at e
    rw [← List.append_cancel_right e]
    exact inert_of_loose fun c hc ↦ hp c (Text.mem_takeWhile hc)

theorem exactly (hw : ∀ c ∈ w, isLoose c = true) : Skips (exactly w) where
  suffix hr := ⟨w, (Text.afterPrefix?_eq_some_iff.1 hr).symm⟩
  inert hr := by
    rw [List.append_cancel_right (Text.afterPrefix?_eq_some_iff.1 hr)]
    exact inert_of_loose hw

end Skips

theorem isLoose_of_isNameChar (h : Text.isNameChar c = true) : isLoose c = true := by simp [isLoose, h]

theorem isLoose_of_isBlank (h : Text.isBlank c = true) : isLoose c = true := by simp [isLoose, h]

theorem skips_exponent : Skips exponent where
  toSplits := consumes_exponent.toSplits
  inert {u r} hr := by
    obtain ⟨c, g, d, hc, hg, hd, e⟩ := exponent_eq_some_iff.1 hr
    have hloose : isLoose c = true := by rcases hc with rfl | rfl <;> decide
    obtain rfl : u = c :: (g ++ d) := List.append_cancel_right (e.trans (by simp))
    obtain ⟨d', hne, hall, -, e⟩ := digits_eq_some_iff.1 hd
    obtain rfl := List.append_cancel_right e
    have hdigits : Inert d := inert_of_loose fun x hx ↦
      isLoose_of_isNameChar (isNameChar_of_isDigit (hall x hx))
    intro lines x
    rw [List.cons_append, tally_loose hloose, List.append_assoc]
    rcases hg with rfl | rfl | rfl
    · exact hdigits lines x
    · exact (tally_loose (by decide)).trans (hdigits lines x)
    · obtain ⟨f, d, rfl⟩ := List.exists_cons_of_ne_nil hne
      have hf : f ≠ '-' := by
        rintro rfl
        have := hall '-' List.mem_cons_self
        cases this
      exact (tally_sign (by simp [isSign, hf])).trans (hdigits lines x)

theorem skips_number : Skips number := by
  have hdigit : ∀ c : Char, c.isDigit = true → isLoose c = true :=
    fun c h ↦ isLoose_of_isNameChar (isNameChar_of_isDigit h)
  have hhex : ∀ c : Char, isHexDigit c = true → isLoose c = true :=
    fun c h ↦ isLoose_of_isNameChar (isNameChar_of_isHexDigit h)
  have hd : Skips digits := .seq (.one hdigit) (.many hdigit)
  have hp : Skips (exactly ".") := .exactly (by decide)
  have he : Skips (maybe exponent) := .maybe skips_exponent
  refine .oneOf fun a ha ↦ ?_
  simp only [List.mem_cons, List.not_mem_nil, or_false] at ha
  rcases ha with rfl | rfl | rfl | rfl | rfl
  · exact .seq (.exactly (by decide)) (.seq (.one hhex) (.many hhex))
  · exact hd.seq (hp.seq (.seq (.many hdigit) he))
  · exact hp.seq (hd.seq he)
  · exact hd.seq skips_exponent
  · exact hd

theorem weight_of_text (h : t.text ≠ ['(']) (h' : t.text ≠ [')']) : t.weight = 0 := by
  simp [weight, isOpenParen, isCloseParen, h, h']

/-- The tally of a text that starts with a token that is no line comment. -/
theorem tally_token (h : t.ReadBefore r) (hl : t.isLineComment = false)
    (hs : t.text = ['/'] → x.head? ≠ some '*') (hx : x.head? = r.head? ∨ Delimited x) :
    tally lines (t.text ++ x) = (tally lines x).map fun p ↦ (t.weight + p.1, p.2) := by
  have skip : t.weight = 0 → tally lines (t.text ++ x) = tally lines x →
      tally lines (t.text ++ x) = (tally lines x).map fun p ↦ (t.weight + p.1, p.2) := by
    intro hw e
    rw [e, hw]
    cases tally lines x <;> simp
  have whole : munch (t.text ++ x) = some (t, x) → t.text ≠ ['/'] →
    (∀ c s, t.text ++ x = c :: s → Whole c s) →
      tally lines (t.text ++ x) = tally lines x := by
    intro hm hsl hw
    obtain ⟨c, u, hu⟩ := List.exists_cons_of_ne_nil h.text_ne_nil
    have e : t.text ++ x = c :: (u ++ x) := by rw [hu, List.cons_append]
    rw [e] at hm ⊢
    exact tally_skip ((hw c _ e).bite_token hm hl hsl)
  have symbol : family t.kind ≠ .identifier → t.kind ≠ .number ∧ t.kind ≠ .blank ∧
    t.kind ≠ .comment → t.text ≠ ['/'] →
      munch (t.text ++ x) = some (t, x) := fun hf hk hsl ↦
    munch_symbol_congr h hf hk.1 (hx.imp_right fun hd ↦ ⟨hd, hk.2⟩) fun e ↦ absurd e hsl
  have hm : munch (t.text ++ r) = some (⟨t.kind, t.text⟩, r) := h
  cases hk : t.kind with
  | clause | join | joinConstraint | conjunction | membership | identifier =>
    refine skip (weight_of_kind (by simp [hk]) (by simp [hk]))
      (inert_of_loose (fun c hc ↦ ?_) lines x)
    refine (h.word_chars (h.isWord_iff.2
      (by rw [hk]; rfl)) c hc).elim isLoose_of_isNameChar isLoose_of_isBlank
  | blank =>
    refine skip (weight_of_kind (by simp [hk]) (by simp [hk]))
      (inert_of_loose (fun c hc ↦ ?_) lines x)
    exact isLoose_of_isBlank ((h.isBlank_iff.1 (by simp [isBlank, hk])).2.1 c hc)
  | number =>
    rw [hk, munch_number_iff] at hm
    exact skip (weight_of_kind (by simp [hk]) (by simp [hk])) (skips_number.inert hm lines x)
  | opening =>
    rw [hk, munch_opening_iff] at hm
    rcases hm with e | e
    · rw [e, weight, isOpenParen, hk, e]
      exact tally_opening
    · refine skip (weight_of_text (by simp [e]) (by simp [e])) ?_
      rw [e]
      exact tally_loose (by decide)
  | closing =>
    rw [hk, munch_closing_iff] at hm
    rcases hm with e | e
    · rw [e, weight, isOpenParen, isCloseParen, hk, e]
      exact tally_closing
    · refine skip (weight_of_text (by simp [e]) (by simp [e])) ?_
      rw [e]
      exact tally_loose (by decide)
  | punctuation =>
    rw [hk, munch_punctuation_iff] at hm
    obtain ⟨c, hc, e⟩ := one_append_iff.1 hm.1
    refine skip (weight_of_kind (by simp [hk]) (by simp [hk])) ?_
    rw [e]
    refine tally_loose ?_
    simp only [Bool.or_eq_true, decide_eq_true_eq, or_assoc] at hc
    rcases hc with rfl | rfl | rfl | rfl | rfl | rfl <;> decide
  | operator =>
    have hm' := hm
    rw [hk, munch_operator_iff, operator_eq_some_iff] at hm
    refine skip (weight_of_kind (by simp [hk]) (by simp [hk])) ?_
    have hmem : t.text ∈ pairs ++ singles := List.mem_append.2 (hm.1.imp id And.left)
    have hcases : ∀ w ∈ pairs ++ singles, (∀ c ∈ w, isLoose c = true) ∨ w = ['|', '|'] ∨
      w = ['-', '>'] ∨ w = ['-'] ∨
      w = ['/'] := by decide
    rcases hcases _ hmem with e | e | e | e | e
    · exact inert_of_loose e lines x
    · have hsl : t.text ≠ ['/'] := by simp [e]
      refine whole (symbol (by rw [hk]; decide) (by simp [hk]) hsl) hsl fun c s hc ↦ ?_
      rw [e] at hc
      obtain ⟨rfl, -⟩ := List.cons.inj hc
      exact ⟨by decide, by decide, by decide, rfl⟩
    · rw [e]
      exact (tally_sign rfl).trans (tally_loose (by decide))
    · have hne : x.head? ≠ some '-' := by
        intro hd
        rcases hx with hx | hx
        · rw [hx] at hd
          obtain ⟨r, rfl⟩ := List.head?_eq_some_iff.1 hd
          have := hm.2.1
          rw [e] at this
          cases this
        · exact absurd (hx _ hd) (by decide)
      rw [e]
      exact tally_sign (by simp [isSign, hne])
    · rw [e]
      exact tally_sign (by simp [isSign, hs e])
  | aggregation | placeholder =>
    have hc : t.text.head? = some '$' := by
      obtain ⟨c, u, hu⟩ := List.exists_cons_of_ne_nil h.text_ne_nil
      have := h.startsKind c (by rw [hu]; rfl)
      simp only [hk, startsKind, decide_eq_true_eq] at this
      rw [hu, this]
      rfl
    have hsl : t.text ≠ ['/'] := by
      intro e
      rw [e] at hc
      cases hc
    refine skip (weight_of_kind (by simp [hk]) (by simp [hk])) ?_
    refine whole (symbol (by rw [hk]; decide) (by simp [hk]) hsl) hsl fun c s e ↦ ?_
    rw [← h.head_append x, e] at hc
    obtain rfl := Option.some.inj hc
    exact ⟨by decide, by decide, by decide, rfl⟩
  | string =>
    have hsl : t.text ≠ ['/'] := by
      intro e
      have := h.startsKind '/' (by rw [e]; rfl)
      rw [hk] at this
      cases this
    refine skip (weight_of_kind (by simp [hk]) (by simp [hk])) ?_
    refine whole (symbol (by rw [hk]; decide) (by simp [hk]) hsl) hsl fun c s e ↦ ?_
    have := h.startsKind c (by rw [← h.head_append x, e]; rfl)
    simp only [hk, startsKind, Bool.or_eq_true, decide_eq_true_eq, or_assoc] at this
    rcases this with rfl | rfl | rfl <;> exact ⟨by decide, by decide, by decide, rfl⟩
  | comment =>
    have hu : ['-', '-'].isPrefixOf t.text = false := by simpa [isLineComment, hk] using hl
    rw [hk] at hm
    obtain ⟨v, hv⟩ := text_of_comment (munch_comment_iff.1 hm) hu
    have hm' : munch (t.text ++ x) = some (⟨.comment, t.text⟩, x) :=
      munch_comment_congr hm fun h ↦ by simp [h] at hu
    rw [← hk] at hm'
    refine skip (weight_of_kind (by simp [hk]) (by simp [hk]))
      (whole hm' (by simp [hv]) fun c s e ↦ ?_)
    rw [hv] at e
    obtain ⟨rfl, rfl⟩ := List.cons.inj e
    exact ⟨by decide, by decide, by decide, rfl⟩

/-- A step is taken only where a token starts. -/
theorem munch_of_bite {o : Option Text} (h : bite lines s = some (n, o)) :
    ∃ t r, munch s = some (t, r) := by
  have of : ∀ {k : Kind} {a : Recognizer} {s}, (k, a) ∈ classes → (∃ r, a s = some r) →
      ∃ t r, munch s = some (t, r) := by
    intro k a s hk ⟨r, hr⟩
    cases hm : munch s with
    | some p => exact ⟨p.1, p.2, rfl⟩
    | none =>
      have := List.findSome?_eq_none_iff.1 hm (k, a) hk
      simp [hr] at this
  have sign : ∀ {c s}, [c] ∈ singles → ∃ t r, munch (c :: s) = some (t, r) := by
    intro c s hc
    refine of (k := .operator) (a := operator) (by simp [classes]) ?_
    rw [operator_eq]
    split
    · exact ⟨_, rfl⟩
    · rw [if_pos (by simpa using hc)]
      exact ⟨_, rfl⟩
  cases bites_of_bite h with
  | opening s => exact of (k := .opening) (a := opening) (by simp [classes]) ⟨s, rfl⟩
  | closing s => exact of (k := .closing) (a := closing) (by simp [classes]) ⟨s, rfl⟩
  | line _ hm | token _ hm => exact ⟨_, _, hm⟩
  | sign hc =>
    simp only [isSign, Bool.or_eq_true, Bool.and_eq_true, decide_eq_true_eq] at hc
    rcases hc with ⟨rfl, -⟩ | ⟨rfl, -⟩ <;> exact sign (by decide)
  | @loose c s hc =>
    simp only [isLoose, Bool.or_eq_true] at hc
    rcases hc with (hc | hc) | hc
    · refine of (k := .blank) (a := blank) (by simp [classes]) ?_
      simp [blank, gap, many1, seq, one, many, hc]
    · simp only [Text.isNameChar, Char.isAlphanum, Bool.or_eq_true, decide_eq_true_eq] at hc
      by_cases hd : c.isDigit = true
      · refine of (k := .number) (a := number) (by simp [classes]) ?_
        cases hn : number (c :: s) with
        | some r => exact ⟨r, rfl⟩
        | none =>
          have := List.findSome?_eq_none_iff.1 hn digits (by simp)
          simp [digits, many1, seq, one, many, hd] at this
      · refine of (k := .identifier) (a := identifier) (by simp [classes]) ?_
        have hw : (c.isAlpha || decide (c = '_')) = true := by simpa [hd] using hc
        simp [identifier, seq, one, many, hw]
    · simp only [List.contains_eq_mem, decide_eq_true_eq, List.mem_cons, List.not_mem_nil,
        or_false] at hc
      rcases hc with rfl | rfl | rfl | rfl | rfl | rfl | rfl | rfl | rfl | rfl | rfl | rfl | rfl | rfl | rfl | rfl
      iterate 8 exact sign (by decide)
      · exact of (k := .opening) (a := opening) (by simp [classes]) ⟨s, rfl⟩
      · exact of (k := .closing) (a := closing) (by simp [classes]) ⟨s, rfl⟩
      all_goals exact of (k := .punctuation) (a := punctuation) (by simp [classes]) ⟨s, rfl⟩

/-- A line comment and what follows it. -/
theorem tally_line (h : t.ReadBefore r) (hl : t.isLineComment = true) :
    tally lines (t.text ++ r) = if lines = true then if r = [] then some (0, true)
      else tally lines r else none := by
  obtain ⟨k, u⟩ := t
  obtain ⟨hk, hu⟩ : k = .comment ∧ ['-', '-'].isPrefixOf u = true := by
    simpa [isLineComment] using hl
  obtain ⟨v, rfl⟩ := List.isPrefixOf_iff_prefix.1 hu
  have hw : Whole '-' ('-' :: v ++ r) := ⟨by decide, by decide, by decide, rfl⟩
  have hm : munch ('-' :: ('-' :: v ++ r)) = some (⟨k, ['-', '-'] ++ v⟩, r) := h
  cases lines with
  | true =>
    have hb := hw.bite_line hm hl
    rw [if_pos rfl]
    by_cases hr : r = []
    · rw [if_pos hr] at hb ⊢
      exact tally_of_bite_end hb
    · rw [if_neg hr] at hb ⊢
      exact tally_skip hb
  | false =>
    have hb : bite false ('-' :: ('-' :: v ++ r)) = none := by
      rw [bite_whole hw, hm]
      exact if_pos hl
    have ht : tally false ('-' :: ('-' :: v ++ r)) = none := by
      rw [tally_eq (List.cons_ne_nil _ _), hb]
      rfl
    exact ht

/-- No step is taken at a slash before an asterisk that is not the start of a comment. -/
theorem tally_slash (h : t.ReadBefore r) (ht : t.text = ['/']) (hr : r.head? = some '*') :
    tally lines (t.text ++ r) = none := by
  have hw : Whole '/' r := ⟨by decide, by decide, by decide, by simp [isSign, hr]⟩
  have hm : munch ('/' :: r) = some (t, r) := by
    rw [ReadBefore, ht] at h
    exact h
  have hl : t.isLineComment = false := by simp [isLineComment, ht, List.isPrefixOf]
  have hb : bite lines ('/' :: r) = none := by
    rw [bite_whole hw, hm]
    simp [hl, ht]
  rw [ht, tally_eq (by simp), List.singleton_append, hb]
  rfl

def weigh (ts : List Token) : Int := (ts.map weight).sum

@[simp] theorem weigh_nil : weigh [] = 0 := rfl

@[simp] theorem weigh_cons (t : Token) (ts : List Token) :
    weigh (t :: ts) = t.weight + weigh ts := by simp [weigh]

@[simp] theorem weigh_append (a b : List Token) : weigh (a ++ b) = weigh a + weigh b := by simp [weigh]

/-- A text with a tally consists of tokens, and the tally is that of its tokens. -/
theorem scan_of_tally (h : tally lines s = some (n, b)) :
    ∃ ts, scan s = ⟨ts, []⟩ ∧ weigh ts = n ∧
      (lines = false → ∀ t ∈ ts, t.isLineComment = false) := by
  induction hn : s.length using Nat.strongRecOn generalizing s n b with
  | ind k ih =>
    by_cases hs : s = []
    · subst hs
      obtain ⟨rfl, -⟩ := Prod.mk.inj (Option.some.inj (tally_nil.symm.trans h))
      exact ⟨[], scan_nil, rfl, fun _ ↦ nofun⟩
    · obtain ⟨t, r, hm⟩ : ∃ t r, munch s = some (t, r) := by
        obtain ⟨hb, -⟩ | ⟨d, r, hb, -⟩ := bite_of_tally h hs
        · exact munch_of_bite hb
        · exact munch_of_bite hb
      obtain ⟨-, e⟩ := munch_eq_some hm
      have hr : t.ReadBefore r := by rwa [ReadBefore, ← e]
      -- a token and the tokens of what follows it
      have step : ∀ {b}, tally lines r = some (n - t.weight, b) →
        (lines = false → t.isLineComment = false) →
          ∃ ts, scan s = ⟨ts, []⟩ ∧ weigh ts = n ∧
              (lines = false → ∀ t ∈ ts, t.isLineComment = false) := by
        intro b ht hl
        obtain ⟨ts, hts, hw, hc⟩ := ih _ (hn ▸ munch_shorter hm) ht rfl
        refine ⟨t :: ts, ?_, ?_, fun e ↦ List.forall_mem_cons.2 ⟨hl e, hc e⟩⟩
        · rw [scan_of_munch hm, hts]
        · rw [weigh_cons, hw]
          omega
      cases hl : t.isLineComment with
      | true =>
        rw [e, tally_line hr hl] at h
        have hw : t.weight = 0 := by
          have hk : t.kind = .comment := by simp_all [isLineComment]
          exact weight_of_kind (by simp [hk]) (by simp [hk])
        split at h
        · rename_i hlines
          have hlf : lines = false → t.isLineComment = false := fun e ↦ by simp [e] at hlines
          split at h
          · obtain ⟨rfl, rfl⟩ := Prod.mk.inj (Option.some.inj h)
            subst_vars
            exact step (by rw [hw, tally_nil]; rfl) hlf
          · exact step (by rwa [hw, Int.sub_zero]) hlf
        · cases h
      | false =>
        by_cases hsl : t.text = ['/'] ∧ r.head? = some '*'
        · rw [e, tally_slash hr hsl.1 hsl.2] at h
          cases h
        · rw [e, tally_token hr hl (fun h₁ h₂ ↦ hsl ⟨h₁, h₂⟩) (.inl rfl)] at h
          obtain ⟨⟨m, b'⟩, hp, he⟩ := Option.map_eq_some_iff.1 h
          obtain ⟨rfl, rfl⟩ := Prod.mk.inj he
          refine step (b := b') ?_ fun _ ↦ hl
          rw [hp, Int.add_comm, Int.add_sub_cancel]

theorem weight_of_isLineComment (h : t.isLineComment = true) : t.weight = 0 := by
  have hk : t.kind = .comment := by simp_all [isLineComment]
  exact weight_of_kind (by simp [hk]) (by simp [hk])

/-- The tokens of a text give its tally, where no slash stands before an asterisk. -/
theorem tally_textOf (h : Lexed ts) (hs : opensComment ts = false)
    (hl : lines = false → ∀ t ∈ ts, t.isLineComment = false) :
    ∃ b, tally lines (textOf ts) = some (weigh ts, b) := by
  induction ts with
  | nil => exact ⟨false, tally_nil⟩
  | cons t ts ih =>
    simp only [opensComment, Bool.or_eq_false_iff, Bool.and_eq_false_iff,
      decide_eq_false_iff_not] at hs
    obtain ⟨b, hb⟩ := ih h.tail hs.2 fun e u hu ↦ hl e u (List.mem_cons_of_mem _ hu)
    rw [textOf_cons, weigh_cons]
    cases ht : t.isLineComment with
    | true =>
      have hlines : lines = true := by
        cases lines with
        | true => rfl
        | false => exact (Bool.eq_false_iff.1 (hl rfl t List.mem_cons_self) ht).elim
      rw [tally_line h.readBefore ht, if_pos hlines, weight_of_isLineComment ht, Int.zero_add]
      split
      · rename_i e
        rw [e, tally_nil] at hb
        obtain ⟨hb, -⟩ := Prod.mk.inj (Option.some.inj hb)
        exact ⟨true, by rw [hb]⟩
      · exact ⟨b, hb⟩
    | false =>
      refine ⟨b, ?_⟩
      rw [tally_token h.readBefore ht (fun e ↦ hs.1.resolve_left fun f ↦ f e) (.inl rfl), hb]
      rfl

/-- Tokens before another text than the one they were read before, which starts alike. -/
theorem tally_leads {c : Char} (h : Leads r ts) (hs : opensComment ts = false)
    (hl : lines = false → ∀ t ∈ ts, t.isLineComment = false) (hr : r.head? = some c)
    (hx : x.head? = some c) (hc : c ≠ '*') :
    tally lines (textOf ts ++ x) = (tally lines x).map fun p ↦ (weigh ts + p.1, p.2) := by
  induction ts with
  | nil => cases hx : tally lines x <;> simp [hx]
  | cons t ts ih =>
    simp only [opensComment, Bool.or_eq_false_iff, Bool.and_eq_false_iff,
      decide_eq_false_iff_not] at hs
    have ih := ih h.2 hs.2 fun e u hu ↦ hl e u (List.mem_cons_of_mem _ hu)
    have hhead : (textOf ts ++ x).head? = (textOf ts ++ r).head? := by
      rw [List.head?_append, List.head?_append, hr, hx]
    rw [textOf_cons, weigh_cons, List.append_assoc]
    cases ht : t.isLineComment with
    | true =>
      have hlines : lines = true := by
        cases lines with
        | true => rfl
        | false => exact (Bool.eq_false_iff.1 (hl rfl t List.mem_cons_self) ht).elim
      have hread : t.ReadBefore (textOf ts ++ x) := by
        obtain ⟨k, u⟩ := t
        obtain ⟨rfl, -⟩ : k = .comment ∧ ['-', '-'].isPrefixOf u = true := by
          simpa [isLineComment] using ht
        exact munch_comment_congr h.1 fun _ ↦ hhead
      have hne : textOf ts ++ x ≠ [] := by
        intro e
        rw [(List.append_eq_nil_iff.1 e).2] at hx
        cases hx
      rw [tally_line hread ht, if_pos hlines, if_neg hne, ih, weight_of_isLineComment ht,
        Int.zero_add]
    | false =>
      have hslash : t.text = ['/'] → (textOf ts ++ x).head? ≠ some '*' := by
        intro e hstar
        rw [List.head?_append] at hstar
        cases hts : (textOf ts).head? with
        | none =>
          rw [hts, Option.none_or, hx] at hstar
          exact hc (Option.some.inj hstar)
        | some d =>
          rw [hts, Option.some_or] at hstar
          exact hs.1.elim (fun f ↦ f e) fun f ↦ f (hts.trans hstar)
      rw [tally_token h.1 ht hslash (.inl hhead), ih, Option.map_map]
      congr
      funext p
      simp only [Function.comp_apply, Prod.mk.injEq, and_true]
      omega

/-- A token other than a line comment, alone. -/
theorem tally_lexical (h : Lexical t) (hl : t.isLineComment = false) :
    tally lines t.text = some (t.weight, false) := by
  obtain ⟨ts, h⟩ := h
  have := @tally_token lines _ [] t h.readBefore hl (fun _ ↦ nofun) (.inr nofun)
  simpa using this

/-- A token that may be a line comment, alone. -/
theorem tally_alone (h : Lexical t) (hl : lines = false → t.isLineComment = false) :
    ∃ b, tally lines t.text = some (t.weight, b) := by
  cases ht : t.isLineComment with
  | false => exact ⟨false, tally_lexical h ht⟩
  | true =>
    have hlines : lines = true := by
      cases lines with
      | true => rfl
      | false => exact (Bool.eq_false_iff.1 (hl rfl) ht).elim
    obtain ⟨ts, h⟩ := h
    have hread : t.ReadBefore [] := by
      obtain ⟨k, u⟩ := t
      obtain ⟨rfl, hu⟩ : k = .comment ∧ ['-', '-'].isPrefixOf u = true := by
        simpa [isLineComment] using ht
      have hm : munch (u ++ textOf ts) = some (⟨.comment, u⟩, textOf ts) := h.readBefore
      exact (munch_lineComment_iff hu).2 ⟨((munch_lineComment_iff hu).1 hm).1, Text.stops_nil _⟩
    have := @tally_line lines _ t hread ht
    rw [List.append_nil, if_pos hlines, if_pos rfl] at this
    exact ⟨true, by rw [this, weight_of_isLineComment ht]⟩

theorem not_isLineComment (hk : t.kind ≠ .comment) : t.isLineComment = false := by simp [isLineComment, hk]

/-- A comment and the end of its line. -/
theorem tally_comment (h : Lexical t) (hk : t.kind = .comment)
    (hl : lines = false → t.isLineComment = false) (x : Text) :
    tally lines (t.text ++ '\n' :: x) = tally lines x := by
  obtain ⟨ts, h⟩ := h
  have hloose : isLoose '\n' = true := by decide
  cases ht : t.isLineComment with
  | true =>
    have hlines : lines = true := by
      cases lines with
      | true => rfl
      | false => exact (Bool.eq_false_iff.1 (hl rfl) ht).elim
    have hr : t.ReadBefore ('\n' :: x) := by
      obtain ⟨k, u⟩ := t
      obtain rfl : k = .comment := hk
      have hu : ['-', '-'].isPrefixOf u = true := by simpa [isLineComment] using ht
      have hm : munch (u ++ textOf ts) = some (⟨.comment, u⟩, textOf ts) := h.readBefore
      exact (munch_lineComment_iff hu).2 ⟨((munch_lineComment_iff hu).1 hm).1, by simp⟩
    rw [tally_line hr ht, if_pos hlines, if_neg (by simp), tally_loose hloose]
  | false =>
    have hw : t.weight = 0 := weight_of_kind (by simp [hk]) (by simp [hk])
    have he := @tally_token lines _ ('\n' :: x) t h.readBefore ht (fun _ ↦ by simp)
      (.inr (by simp [Delimited]; decide))
    rw [he, tally_loose hloose, hw]
    cases tally lines x <;> simp

theorem weigh_eq (ts : List Token) : weigh ts = ts.countP isOpenParen - ts.countP isCloseParen := by
  induction ts with
  | nil => rfl
  | cons t ts ih =>
    rw [weigh_cons, ih, List.countP_cons, List.countP_cons, weight]
    by_cases ho : t.isOpenParen = true
    · have hc := isCloseParen_of_isOpenParen ho
      simp only [ho, hc, if_true, Bool.false_eq_true, if_false]
      omega
    · by_cases hc : t.isCloseParen = true
      · simp only [ho, hc, if_true, Bool.false_eq_true, if_false]
        omega
      · simp only [ho, hc, Bool.false_eq_true, if_false]
        omega

/-- A text with a tally lexes, and the tally is that of its tokens. -/
theorem tokens?_of_tally (h : tally lines s = some (n, b)) :
    ∃ ts, tokens? s = .ok ts ∧ weigh ts = n := by
  obtain ⟨ts, hs, hw, -⟩ := scan_of_tally h
  refine ⟨ts, ?_, hw⟩
  rw [tokens?, hs]
  rfl

end QueryTemplate
