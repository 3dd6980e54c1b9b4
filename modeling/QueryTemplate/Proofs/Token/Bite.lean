import QueryTemplate.Proofs.Token.Alone
import QueryTemplate.Proofs.Token.Cut
namespace QueryTemplate

open Token Grammar Recognizer

/-- Characters of code that count for nothing, whatever stands around them. -/
def isLoose (c : Char) : Bool :=
  Text.isBlank c || Text.isNameChar c ||
    ['+', '%', '*', '=', '<', '>', '.', '!', '[', ']', ',', ':', '?', ';', '{', '}'].contains c

/-- A sign that starts no comment before `s`. -/
def isSign (c : Char) (s : Text) : Bool :=
  c = '-' && s.head? ≠ some '-' || c = '/' && s.head? ≠ some '*'

/-- The first step through a text: parentheses opened less closed by it, and what follows it unless
that is a line comment up to the end. Line comments are read only with `lines`. -/
def bite (lines : Bool) : Text → Option (Int × Option Text)
  | [] => none
  | c :: s =>
    if c = '(' then some (1, some s)
    else if c = ')' then some (-1, some s)
    else if isLoose c || isSign c s then some (0, some s)
    else match munch (c :: s) with
      | none => none
      | some (t, r) =>
        if t.isLineComment then if lines then some (0, if r = [] then none else some r) else none
        -- a slash before an asterisk where no comment ends
        else if t.text = ['/'] then none
        else some (0, some r)

variable {lines : Bool} {c : Char} {s r u w x y z : Text} {n m : Int} {b : Bool} {t : Token}

theorem bite_loose (h : isLoose c = true) : bite lines (c :: s) = some (0, some s) := by
  have h₁ : c ≠ '(' := by rintro rfl; cases h
  have h₂ : c ≠ ')' := by rintro rfl; cases h
  rw [bite, if_neg h₁, if_neg h₂, h, Bool.true_or, if_pos rfl]

theorem bite_sign (h : isSign c s = true) : bite lines (c :: s) = some (0, some s) := by
  have h₁ : c ≠ '(' := by rintro rfl; cases h
  have h₂ : c ≠ ')' := by rintro rfl; cases h
  rw [bite, if_neg h₁, if_neg h₂, h, Bool.or_true, if_pos rfl]

/-- A character at which a token is read as a whole. -/
structure Whole (c : Char) (s : Text) : Prop where
  opening : c ≠ '('
  closing : c ≠ ')'
  loose : isLoose c = false
  sign : isSign c s = false

theorem bite_whole (h : Whole c s) : bite lines (c :: s) = match munch (c :: s) with
    | none => none
    | some (t, r) =>
      if t.isLineComment then if lines then some (0, if r = [] then none else some r) else none
      else if t.text = ['/'] then none
      else some (0, some r) := by
  rw [bite, if_neg h.opening, if_neg h.closing, h.loose, h.sign]
  rfl

/-- What the steps through a text are. -/
inductive Bites (lines : Bool) : Text → Int → Option Text → Prop
  | opening (s : Text) : Bites lines ('(' :: s) 1 (some s)
  | closing (s : Text) : Bites lines (')' :: s) (-1) (some s)
  | loose {c : Char} {s : Text} (h : isLoose c = true) : Bites lines (c :: s) 0 (some s)
  | sign {c : Char} {s : Text} (h : isSign c s = true) : Bites lines (c :: s) 0 (some s)
  | line {c : Char} {s : Text} {t : Token} {r : Text} (h : Whole c s) (hm : munch (c :: s) =
      some (t, r)) (ht : t.isLineComment = true)
    (hl : lines = true) : Bites lines (c :: s) 0 (if r = [] then none else some r)
  | token {c : Char} {s : Text} {t : Token} {r : Text} (h : Whole c s) (hm : munch (c :: s) =
      some (t, r)) (ht : t.isLineComment = false)
    (hs : t.text ≠ ['/']) : Bites lines (c :: s) 0 (some r)

theorem bites_of_bite {o : Option Text} (h : bite lines s = some (n, o)) : Bites lines s n o := by
  cases s with
  | nil => cases h
  | cons c s =>
    rw [bite] at h
    split at h
    · subst_vars
      obtain ⟨rfl, rfl⟩ := Prod.mk.inj (Option.some.inj h)
      exact .opening s
    split at h
    · subst_vars
      obtain ⟨rfl, rfl⟩ := Prod.mk.inj (Option.some.inj h)
      exact .closing s
    split at h
    · rename_i hc
      obtain ⟨rfl, rfl⟩ := Prod.mk.inj (Option.some.inj h)
      rcases (Bool.or_eq_true _ _).mp hc with hc | hc
      · exact .loose hc
      · exact .sign hc
    rename_i h₁ h₂ h₃
    obtain ⟨h₃, h₄⟩ := Bool.or_eq_false_iff.1 (Bool.eq_false_iff.2 h₃)
    split at h
    · cases h
    · rename_i t r hm
      split at h
      · split at h
        · obtain ⟨rfl, rfl⟩ := Prod.mk.inj (Option.some.inj h)
          exact .line ⟨h₁, h₂, h₃, h₄⟩ hm ‹_› ‹_›
        · cases h
      split at h
      · cases h
      · obtain ⟨rfl, rfl⟩ := Prod.mk.inj (Option.some.inj h)
        exact .token ⟨h₁, h₂, h₃, h₄⟩ hm (Bool.eq_false_iff.2 ‹_›) ‹_›

theorem Whole.bite_line (h : Whole c s) (hm : munch (c :: s) = some (t, r))
    (ht : t.isLineComment = true) :
    bite true (c :: s) = some (0, if r = [] then none else some r) := by
  rw [bite_whole h, hm]
  simp only [ht, if_true]

theorem Whole.bite_token (h : Whole c s) (hm : munch (c :: s) = some (t, r))
    (ht : t.isLineComment = false) (hs : t.text ≠ ['/']) :
    bite lines (c :: s) = some (0, some r) := by
  rw [bite_whole h, hm]
  simp only [ht, if_neg hs, Bool.false_eq_true, if_false]

theorem bite_suffix (h : bite lines s = some (n, some r)) : r <:+ s ∧ r.length < s.length := by
  generalize ho : some r = o at h
  cases bites_of_bite h with
  | opening s | closing s | loose | sign =>
    obtain rfl := Option.some.inj ho
    exact ⟨List.suffix_cons _ _, Nat.lt_succ_self _⟩
  | line _ hm =>
    split at ho
    · cases ho
    · obtain rfl := Option.some.inj ho
      exact ⟨⟨_, (munch_eq_some hm).2.symm⟩, munch_shorter hm⟩
  | token _ hm =>
    obtain rfl := Option.some.inj ho
    exact ⟨⟨_, (munch_eq_some hm).2.symm⟩, munch_shorter hm⟩

theorem isSign_append (h : isSign c s = true)
    (hs : s = [] → y.head? ≠ some '-' ∧ y.head? ≠ some '*') :
    isSign c (s ++ y) = true := by
  cases s with
  | cons d s => exact h
  | nil =>
    obtain ⟨h₁, h₂⟩ := hs rfl
    simp only [isSign, List.head?_nil, ne_eq, reduceCtorEq, not_false_eq_true, decide_true,
      Bool.and_true, Bool.or_eq_true, decide_eq_true_eq] at h
    simp only [isSign, List.nil_append, Bool.or_eq_true, Bool.and_eq_true, decide_eq_true_eq]
    exact h.imp (⟨·, h₁⟩) (⟨·, h₂⟩)

theorem Whole.append (h : Whole c s) (y : Text) : Whole c (s ++ y) := by
  refine ⟨h.opening, h.closing, h.loose, ?_⟩
  have hs := h.sign
  cases s with
  | cons d s => exact hs
  | nil =>
    simp only [isSign, List.head?_nil, ne_eq, reduceCtorEq, not_false_eq_true, decide_true,
      Bool.and_true, Bool.or_eq_false_iff, decide_eq_false_iff_not] at hs
    simp [isSign, hs.1, hs.2]

theorem Token.ReadBefore.startsKind (h : t.ReadBefore r) :
    ∀ c ∈ t.text.head?, startsKind t.kind c = true := by
  intro c hc
  obtain ⟨as, a, bs, hcl, ha, -⟩ :=
    munch_eq_some_iff.1 (h : munch (t.text ++ r) = some (⟨t.kind, t.text⟩, r))
  obtain ⟨d, v, hd, hk⟩ := (starts_of_mem_classes (c := (t.kind, a)) (by simp [hcl])).start ha
  rw [← h.head_append r, hd] at hc
  exact Option.some.inj hc ▸ hk

/-- The first token of a text starts with its first character. -/
theorem readBefore_of_munch (hm : munch (c :: s) = some (t, r)) :
    t.ReadBefore r ∧ t.text.head? = some c := by
  have h : t.ReadBefore r := by rwa [Token.ReadBefore, ← (munch_eq_some hm).2]
  refine ⟨h, ?_⟩
  rw [← h.head_append r, ← (munch_eq_some hm).2]
  rfl

/-- The classes of tokens that are read as a whole. -/
theorem Whole.kind (h : Whole c s) (hm : munch (c :: s) = some (t, r)) :
    t.kind = .comment ∨ t.kind = .aggregation ∨ t.kind = .placeholder ∨ t.kind = .string ∨
      t.kind = .operator := by
  obtain ⟨hr, hc⟩ := readBefore_of_munch hm
  have hk := hr.startsKind c hc
  have hl := h.loose
  simp only [isLoose, Bool.or_eq_false_iff] at hl
  obtain ⟨⟨hblank, hname⟩, hsign⟩ := hl
  cases hkind : t.kind with
  | comment | aggregation | placeholder | string | operator => simp
  | blank =>
    rw [hkind] at hk
    exact absurd hk (by simp [startsKind, hblank])
  | clause | join | joinConstraint | conjunction | membership | identifier =>
    rw [hkind] at hk
    have := isNameChar_of_startsWord hk
    simp [hname] at this
  | number =>
    rw [hkind] at hk
    simp only [startsKind, Bool.or_eq_true, decide_eq_true_eq] at hk
    rcases hk with hk | rfl
    · have := isNameChar_of_isDigit hk
      simp [hname] at this
    · cases hsign
  | opening =>
    rw [hkind] at hk
    simp only [startsKind, Bool.or_eq_true, decide_eq_true_eq] at hk
    rcases hk with rfl | rfl
    · exact absurd rfl h.opening
    · cases hsign
  | closing =>
    rw [hkind] at hk
    simp only [startsKind, Bool.or_eq_true, decide_eq_true_eq] at hk
    rcases hk with rfl | rfl
    · exact absurd rfl h.closing
    · cases hsign
  | punctuation =>
    rw [hkind] at hk
    simp only [startsKind, Bool.or_eq_true, decide_eq_true_eq, or_assoc] at hk
    rcases hk with rfl | rfl | rfl | rfl | rfl | rfl <;> cases hsign

/-- A comment other than a line comment stands between its marks. -/
theorem text_of_comment (h : comment (u ++ r) = some r) (hl : ['-', '-'].isPrefixOf u = false) :
    ∃ v, u = '/' :: '*' :: v ++ ['*', '/'] := by
  simp only [comment, oneOf, List.findSome?_cons, List.findSome?_nil] at h
  split at h
  · rename_i e
    rw [Option.some.inj h] at e
    obtain ⟨s, h₁, h₂⟩ := Option.bind_eq_some_iff.1 e
    obtain ⟨v, rfl⟩ := (Splits.many _).suffix h₂
    obtain rfl := List.append_cancel_right
      ((Text.afterPrefix?_eq_some_iff.1 h₁).trans (List.append_assoc _ v _).symm)
    cases hl
  split at h
  · rename_i e
    rw [Option.some.inj h] at e
    obtain ⟨s, h₁, h₂⟩ := Option.bind_eq_some_iff.1 e
    obtain ⟨v, rfl⟩ := commentEnd_eq_some h₂
    have e : u ++ r = '/' :: '*' :: v ++ ['*', '/'] ++ r :=
      (Text.afterPrefix?_eq_some_iff.1 h₁).trans (by simp)
    exact ⟨v, List.append_cancel_right e⟩
  · cases h

/-- A token that is read as a whole ends in no space and no character that takes what follows it
without one. -/
theorem Whole.last (h : Whole c s) (hm : munch (c :: s) = some (t, r))
    (hl : t.isLineComment = false) :
    ∀ d ∈ t.text.getLast?, Text.isSpace d = false ∧ d ∉ ['(', '[', '.', '!'] := by
  have hk := h.kind hm
  obtain ⟨hr, hc⟩ := readBefore_of_munch hm
  have hm : munch (t.text ++ r) = some (⟨t.kind, t.text⟩, r) := hr
  intro d hd
  by_cases hcom : t.kind = .comment
  · rw [hcom, munch_comment_iff] at hm
    obtain ⟨v, hv⟩ := text_of_comment hm (by simpa [isLineComment, hcom] using hl)
    rw [hv, List.getLast?_append] at hd
    obtain rfl := Option.some.inj hd
    decide
  · have hb : t.kind ≠ .blank := by
      rintro e
      simp [e] at hk
    obtain ⟨as, b, bs, hcl, hb', -⟩ := munch_eq_some_iff.1 hm
    have hend := (ends_of_mem_classes (k := t.kind)
      (a := b) (by rw [hcl]; simp) hb hcom).last hb' d hd
    refine ⟨isSpace_of_endsKind hend hb hcom, fun hmem ↦ ?_⟩
    have hop : ∀ w ∈ pairs ++ singles, (∀ c ∈ w.head?, isLoose c = false) →
        ∀ d ∈ w.getLast?, d ∉ ['(', '[', '.', '!'] := by
      decide
    rcases hk with hk | hk | hk | hk | hk
    · exact hcom hk
    · rw [hk] at hend
      simp only [List.mem_cons, List.not_mem_nil, or_false] at hmem
      rcases hmem with rfl | rfl | rfl | rfl <;> cases hend
    · rw [hk] at hend
      simp only [List.mem_cons, List.not_mem_nil, or_false] at hmem
      rcases hmem with rfl | rfl | rfl | rfl <;> cases hend
    · rw [hk] at hend
      simp only [List.mem_cons, List.not_mem_nil, or_false] at hmem
      rcases hmem with rfl | rfl | rfl | rfl <;> cases hend
    · rw [hk, munch_operator_iff, operator_eq_some_iff] at hm
      refine hop t.text ?_ (fun c' hc' ↦ ?_) d hd hmem
      · exact List.mem_append.2 (hm.1.imp id And.left)
      · rw [hc] at hc'
        obtain rfl := Option.some.inj hc'
        exact h.loose

/-- Two texts can be put together without a token that has a part in both, but for such as do not
count. -/
def Seam (x y : Text) : Prop :=
  Delimited y ∨ ∃ c ∈ x.getLast?, Text.isSpace c = true ∨ c ∈ ['(', '[', '.', '!']

/-- What is read as a whole is read as it was before a text that starts alike, and if it is no line
comment before one that starts with a delimiter. -/
theorem Whole.munch_congr (h : Whole c s) (hm : munch (c :: s) = some (t, r)) (hs : t.text ≠ ['/'])
    (hr : x.head? = r.head? ∨ t.isLineComment = false ∧ Delimited x) :
    munch (t.text ++ x) = some (t, x) := by
  have hk := h.kind hm
  rw [(munch_eq_some hm).2] at hm
  by_cases hc : t.kind = .comment
  · obtain ⟨k, u⟩ := t
    obtain rfl : k = .comment := hc
    refine munch_comment_congr hm fun hu ↦ hr.resolve_right fun hx ↦ ?_
    simp [isLineComment, hu] at hx
  · have hf : family t.kind ≠ .identifier ∧ t.kind ≠ .number ∧ t.kind ≠ .blank := by
      rcases hk with hk | hk | hk | hk | hk <;> rw [hk] <;> decide
    exact munch_symbol_congr hm hf.1 hf.2.1 (hr.imp_right fun hx ↦ ⟨hx.2, hf.2.2, hc⟩) fun e ↦
      absurd e hs

theorem Seam.head (h : Seam [c] y) (hc : isSign c [] = true) :
    y.head? ≠ some '-' ∧ y.head? ≠ some '*' := by
  rcases h with h | ⟨d, hd, h⟩
  · constructor <;> exact fun e ↦ absurd (h _ e) (by decide)
  · obtain rfl := Option.some.inj hd
    simp only [isSign, List.head?_nil, ne_eq, reduceCtorEq, not_false_eq_true, decide_true,
      Bool.and_true, Bool.or_eq_true, decide_eq_true_eq] at hc
    rcases hc with rfl | rfl <;> exact absurd h (by decide)

theorem bite_append (h : bite lines x = some (n, some r)) (hs : r = [] → Seam x y) :
    bite lines (x ++ y) = some (n, some (r ++ y)) := by
  generalize ho : some r = o at h
  cases bites_of_bite h with
  | opening s =>
    obtain rfl := Option.some.inj ho
    rfl
  | closing s =>
    obtain rfl := Option.some.inj ho
    rfl
  | loose hc =>
    obtain rfl := Option.some.inj ho
    exact bite_loose hc
  | sign hc =>
    obtain rfl := Option.some.inj ho
    refine bite_sign (isSign_append hc fun e ↦ ?_)
    subst e
    exact (hs rfl).head hc
  | @line c s t r' hw hm ht hl =>
    split at ho
    · cases ho
    · rename_i hne
      obtain rfl := Option.some.inj ho
      subst hl
      have hsl : t.text ≠ ['/'] := by
        intro e
        simp [isLineComment, e] at ht
      have hm' := hw.munch_congr hm hsl (x := r ++ y)
        (.inl (by rw [List.head?_append, List.head?_eq_some_head hne, Option.some_or]))
      rw [← List.append_assoc, ← (munch_eq_some hm).2] at hm'
      rw [List.cons_append, (hw.append y).bite_line hm' ht, if_neg (by simp [hne])]
  | @token c s t r' hw hm ht hsl =>
    obtain rfl := Option.some.inj ho
    have hm' := hw.munch_congr hm hsl (x := r ++ y) ?_
    · rw [← List.append_assoc, ← (munch_eq_some hm).2] at hm'
      exact (hw.append y).bite_token hm' ht hsl
    · by_cases hne : r = []
      · subst hne
        refine .inr ⟨ht, (hs rfl).resolve_right ?_⟩
        rintro ⟨d, hd, h⟩
        rw [(munch_eq_some hm).2, List.append_nil] at hd
        obtain ⟨h₁, h₂⟩ := hw.last hm ht d hd
        rcases h with h | h
        · simp [h] at h₁
        · exact h₂ h
      · exact .inl (by rw [List.head?_append, List.head?_eq_some_head hne, Option.some_or])

theorem getLast?_of_suffix (h : r <:+ x) (hr : r ≠ []) : r.getLast? = x.getLast? := by
  obtain ⟨v, rfl⟩ := h
  rw [List.getLast?_append, List.getLast?_eq_some_getLast hr, Option.some_or]

theorem Seam.suffix (h : Seam x y) (hr : r <:+ x) (hne : r ≠ []) : Seam r y := by
  rwa [Seam, getLast?_of_suffix hr hne]

theorem isSign_left (h : isSign c (s ++ w) = true) : isSign c s = true := by
  cases s with
  | cons d s => exact h
  | nil =>
    simp only [isSign, Bool.or_eq_true, Bool.and_eq_true, decide_eq_true_eq] at h
    simp only [isSign, List.head?_nil, ne_eq, reduceCtorEq, not_false_eq_true, decide_true,
      Bool.and_true, Bool.or_eq_true, decide_eq_true_eq]
    exact h.imp And.left And.left

theorem Whole.left (h : Whole c (s ++ w)) (hw : ∀ d ∈ w, Text.isSpace d = true) : Whole c s := by
  refine ⟨h.opening, h.closing, h.loose, ?_⟩
  have hs := h.sign
  cases s with
  | cons d s => exact hs
  | nil =>
    rw [← hs, List.nil_append]
    cases w with
    | nil => rfl
    | cons d w =>
      have hd := hw d List.mem_cons_self
      have h₁ : d ≠ '-' := by rintro rfl; cases hd
      have h₂ : d ≠ '*' := by rintro rfl; cases hd
      simp [isSign, h₁, h₂]

theorem Whole.isSpace (h : Whole c s) (hm : munch (c :: s) = some (t, r)) :
    Text.isSpace c = false := by
  obtain ⟨hr, hc⟩ := readBefore_of_munch hm
  have hk := h.kind hm
  refine isSpace_of_startsKind (hr.startsKind c hc) fun hb ↦ ?_
  simp [hb] at hk

theorem bite_space {o : Option Text} (h : bite lines (c :: s) = some (n, o))
    (hc : Text.isSpace c = true) :
    n = 0 ∧ o = some s := by
  cases bites_of_bite h with
  | opening | closing => cases hc
  | loose | sign => exact ⟨rfl, rfl⟩
  | line hw hm =>
    rw [hw.isSpace hm] at hc
    cases hc
  | token hw hm =>
    rw [hw.isSpace hm] at hc
    cases hc

/-- What is read of a text before white space stays within the text, but for a line comment. -/
theorem munch_left (hm : munch (x ++ w) = some (t, r)) (hw : ∀ d ∈ w, Text.isSpace d = true)
    (ht : ∀ d ∈ t.text.getLast?, Text.isSpace d = false) : ∃ z, x = t.text ++ z ∧ r = z ++ w := by
  obtain ⟨hne, e⟩ := munch_eq_some hm
  obtain ⟨v, hv, rfl⟩ | ⟨z, rfl, rfl⟩ := List.append_eq_append_iff.1 e
  · cases v with
    | nil => exact ⟨[], by simpa using hv.symm, rfl⟩
    | cons d v =>
      obtain ⟨f, hf⟩ : ∃ f, (d :: v).getLast? = some f :=
        ⟨_, List.getLast?_eq_some_getLast (List.cons_ne_nil d v)⟩
      have hs := ht f (by rw [hv, List.getLast?_append, hf]; rfl)
      rw [hw f (List.mem_append_left _ (List.mem_of_getLast? hf))] at hs
      cases hs
  · exact ⟨z, rfl, rfl⟩

/-- A line comment before white space goes to the end of the text or stays within it. -/
theorem munch_left_line (hm : munch (x ++ w) = some (t, r)) (hw : ∀ d ∈ w, Text.isSpace d = true)
    (hx : ∀ d ∈ x.getLast?, Text.isSpace d = false) (hne : x ≠ []) (ht : t.isLineComment = true) :
    (∃ u, u.isLineComment = true ∧ munch x = some (u, []) ∧ ∀ d ∈ r, Text.isSpace d = true) ∨
      ∃ z, z ≠ [] ∧ x = t.text ++ z ∧ r = z ++ w ∧ munch x = some (t, z) := by
  obtain ⟨-, e⟩ := munch_eq_some hm
  obtain ⟨k, u⟩ := t
  obtain ⟨hk, hu⟩ : k = .comment ∧ ['-', '-'].isPrefixOf u = true := by
    simpa [isLineComment] using ht
  subst hk
  rw [e] at hm
  obtain ⟨hall, hst⟩ := (munch_lineComment_iff hu).1 hm
  obtain ⟨v, hv, rfl⟩ | ⟨z, rfl, rfl⟩ := List.append_eq_append_iff.1 e
  · have hv : u = x ++ v := hv
    have hp : ['-', '-'].isPrefixOf x = true := by
      rw [hv] at hu
      rcases x with _ | ⟨a, _ | ⟨a', x⟩⟩
      · exact absurd rfl hne
      · cases v with
        | nil => simp [List.isPrefixOf] at hu
        | cons d v =>
          have hd : d = '-' := by
            simp only [List.cons_append, List.nil_append, List.isPrefixOf, Bool.and_eq_true,
              beq_iff_eq] at hu
            exact hu.2.1.symm
          have := hw d (by simp)
          rw [hd] at this
          cases this
      · simpa [List.isPrefixOf] using hu
    have hm' : munch (x ++ []) = some (⟨.comment, x⟩, []) :=
      (munch_lineComment_iff hp).2 ⟨fun c hc ↦ hall c (by rw [hv]; exact List.mem_append_left _ hc),
        Text.stops_nil _⟩
    rw [List.append_nil] at hm'
    exact .inl ⟨_, by simp [isLineComment, hp], hm', fun d hd ↦ hw d (List.mem_append_right _ hd)⟩
  · cases z with
    | nil =>
      have hm' := (munch_lineComment_iff (r := []) hu).2 ⟨hall, Text.stops_nil _⟩
      exact .inl ⟨_, ht, by simpa using hm', by simpa using hw⟩
    | cons d z =>
      exact .inr ⟨d :: z, by simp, rfl, rfl, (munch_lineComment_iff hu).2 ⟨hall, hst⟩⟩

end QueryTemplate
