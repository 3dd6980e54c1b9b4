import QueryTemplate.Proofs.Query.PassageParse
import QueryTemplate.Proofs.Query.Separator
namespace QueryTemplate

open Token Fragment Grammar Formula

/-- What stands before an item on a line of its own. -/
def Token.lineStart : Token := ⟨.blank, "\n    "⟩

/-- Expressions on lines of their own, with a separator after each but the last. -/
def printed (sep : List Token) : List (List Token) → List Token
  | [] => []
  | [l] => bare none l
  | l :: m :: r => punctuated none sep l ++ lineStart :: printed sep (m :: r)

/-- The items that expressions printed with commas are read as, between `pre` and `tail`. A line
comment goes to the next item, and two line comments take the comma with them. -/
def relaidList (pre tail : List Token) : List (List Token) → List (List Token)
  | [] => []
  | [l] => [pre ++ bare none l ++ tail]
  | l :: m :: r =>
    match lineEnding l with
    | .code => (pre ++ bare none l) :: relaidList [lineStart] tail (m :: r)
    | .one i t => (pre ++ bare none i) :: relaidList [space, t.trimmed, lineStart] tail (m :: r)
    | .two j c t => relaidList (pre ++ bare none (j ++ [fuse [comma] c t]) ++
      [lineStart]) tail (m :: r)

/-- The items that expressions printed one after another are read as. -/
def relaidConjuncts (pre tail : List Token) : List (List Token) → List (List Token)
  | [] => []
  | [l] => [pre ++ bare none l ++ tail]
  | l :: m :: r => (pre ++ punctuated none [] l ++ [lineStart]) :: relaidConjuncts [] tail (m :: r)

section

variable {x y a b l : List Token} {ls : List (List Token)} {pre tail sep ps us : List Token}
    {p : Option Token}

theorem separated_cons {x : List Token} {xs : List (List Token)} (hne : xs ≠ [])
    (sep : List Token) :
    separated sep (x :: xs) = x ++ sep ++ separated sep xs := by
  obtain ⟨y, r, rfl⟩ := List.exists_cons_of_ne_nil hne
  rfl

theorem relaidList_ne_nil (hne : ls ≠ []) (pre tail : List Token) :
    relaidList pre tail ls ≠ [] := by
  fun_induction relaidList pre tail ls with
  | case1 => exact absurd rfl hne
  | case2 | case3 | case4 => nofun
  | case5 pre l m r j c t _ ih => exact ih (by simp)

theorem separated_relaidList (hne : ls ≠ []) (pre tail : List Token) :
    separated [comma] (relaidList pre tail ls) = pre ++ printed [comma] ls ++ tail := by
  fun_induction relaidList pre tail ls with
  | case1 => exact absurd rfl hne
  | case2 pre l => rfl
  | case3 pre l m r e ih =>
    rw [separated_cons (relaidList_ne_nil (by simp) _ _), ih (by simp), printed, punctuated, e]
    simp
  | case4 pre l m r i t e ih =>
    rw [separated_cons (relaidList_ne_nil (by simp) _ _), ih (by simp), printed, punctuated, e]
    simp
  | case5 pre l m r j c t e ih =>
    rw [ih (by simp), printed, punctuated, e]
    simp

theorem flatten_relaidConjuncts (hne : ls ≠ []) (pre tail : List Token) :
    (relaidConjuncts pre tail ls).flatten = pre ++ printed [] ls ++ tail := by
  fun_induction relaidConjuncts pre tail ls with
  | case1 => exact absurd rfl hne
  | case2 pre l => simp [printed]
  | case3 pre l m r ih =>
    rw [List.flatten_cons, ih (by simp), printed]
    simp

theorem head_bare (t : Token) (l : List Token) :
    ∃ u r, bare none (t :: l) = u :: r ∧ u.kind = t.kind := by
  obtain ⟨u, r, e, hu⟩ := bare_cons none t l
  refine ⟨u, r, e, ?_⟩
  rcases hu with rfl | rfl <;> rfl

theorem codeOf_lineComment {t : Token} (h : t.isLineComment = true) : codeOf [t] = [] := by
  simp [codeOf, kind_of_isLineComment h]

theorem head_printed {t : Token} {l : List Token} {r : List (List Token)} (h : codeOf (t :: l) ≠ [])
    (sep : List Token) :
    ∃ u us, printed sep ((t :: l) :: r) = u :: us ∧ u.kind = t.kind := by
  have hfront : ∀ (i : List Token), i ≠ [] → ∀ b, t :: l = i ++ b →
      ∃ u us, bare none i = u :: us ∧ u.kind = t.kind := by
    rintro (_ | ⟨v, i⟩) hne b e
    · exact absurd rfl hne
    · rw [← (List.cons.inj e).1]
      exact head_bare t i
  cases r with
  | nil => exact head_bare t l
  | cons m r =>
    rw [printed, punctuated]
    cases e : lineEnding (t :: l) with
    | code =>
      obtain ⟨u, us, hb, hk⟩ := head_bare t l
      exact ⟨u, _, by rw [hb, List.cons_append, List.cons_append], hk⟩
    | one i c =>
      obtain ⟨he, hc, -⟩ := lineEnding_one e
      obtain ⟨u, us, hb, hk⟩ := hfront i
        (fun hi ↦ h (by rw [he, hi]; exact codeOf_lineComment hc)) _ he
      exact ⟨u, us ++ sep ++ [space, c.trimmed] ++ lineStart :: printed sep (m :: r),
        by simp [hb], hk⟩
    | two j c d =>
      obtain ⟨he, hc, hd⟩ := lineEnding_two e
      have hj : j ≠ [] := fun hj ↦ h (by
        rw [he, hj]
        simp [codeOf, kind_of_isLineComment hc, kind_of_isLineComment hd])
      obtain ⟨v, j, rfl⟩ := List.exists_cons_of_ne_nil hj
      obtain ⟨u, us, hb, hk⟩ := head_bare v (j ++ [fuse sep c d])
      rw [List.append_assoc] at he
      exact ⟨u, us ++ lineStart :: printed sep (m :: r),
        by simp [hb], by rw [hk, (List.cons.inj he).1]⟩

/-- An expression with a separator after it is read before the next line. -/
theorem Inline.lexed_punctuated (h : Inline l) (hs : sep = [comma] ∨ sep = [] ∧ ahead ps = [])
    (hl : Lexed ps) (hb : ∀ u ∈ ps.head?, u.isBlank = false) :
    Lexed (punctuated p sep l ++ lineStart :: ps) := by
  have hstart : Lexed (lineStart :: ps) := hl.blank_cons hb (by decide) (by decide)
  have hline : Text.Stops (· ≠ '\n') (textOf (lineStart :: ps)) := by simp [lineStart]
  have hsep : ∀ qs, Lexed qs → Sealed (textOf qs) → Lexed (sep ++ qs) ∧
      Sealed (textOf (sep ++ qs)) := by
    intro qs hq hqs
    rcases hs with rfl | ⟨rfl, -⟩
    · have hc : Lexed [comma] := by decide
      exact ⟨hc.before hq (admits_sealed hc (by decide) hqs fun h ↦ by cases h), sealed_comma _⟩
    · exact ⟨hq, hqs⟩
  have hahead : ∀ qs, ahead qs = [] → ahead (sep ++ qs) = [] := by
    intro qs hq
    rcases hs with rfl | ⟨rfl, -⟩
    · exact ahead_comma _
    · exact hq
  rw [punctuated]
  cases e : lineEnding l with
  | code =>
    obtain ⟨h₁, h₂⟩ := hsep _ hstart (sealed_blank rfl _)
    have ha : ahead (sep ++ lineStart :: ps) = [] := by
      rcases hs with rfl | ⟨rfl, ha⟩
      · exact ahead_comma _
      · rwa [List.nil_append, ahead_blank rfl]
    have hlast := lineEnding_code e
    rw [List.append_assoc]
    refine h.lexed_bare ⟨h₁, h₂, fun _ _ _ ↦ ha, fun t ht htl ↦ ?_⟩
    rw [Option.mem_def.1 ht, Option.any_some, htl] at hlast
    cases hlast
  | one i t =>
    obtain ⟨rfl, ht, hlast⟩ := lineEnding_one e
    have htr := h.lexed_trimmed (t := t) (by simp)
    have hk : t.kind = .comment := kind_of_isLineComment ht
    have hcm : t.trimmed.kind = .comment := hk
    have hq : Lexed (space :: t.trimmed :: lineStart :: ps) := by
      refine (htr.before hstart (admits_comment htr hcm fun _ ↦ hline)).space_cons fun u hu ↦ ?_
      rw [← Option.some.inj hu, Token.isBlank, hcm]
      rfl
    obtain ⟨h₁, h₂⟩ := hsep _ hq (sealed_blank rfl _)
    have ha : ahead (space :: t.trimmed :: lineStart :: ps) = [] := by
      rw [ahead_blank rfl]
      exact ahead_symbol (by rw [Token.isBlank, hcm]; rfl) (not_isWord_of_comment htr hcm) _
    simp only [List.append_assoc, List.cons_append, List.nil_append]
    refine h.left.lexed_bare ⟨h₁, h₂, fun _ _ _ ↦ hahead _ ha, fun u hu hul ↦ ?_⟩
    rw [Option.mem_def.1 hu, Option.any_some, hul] at hlast
    cases hlast
  | two j c t =>
    obtain ⟨rfl, hc, ht⟩ := lineEnding_two e
    have hn : ∀ a ∈ textOf sep, a ≠ '\n' := by
      rcases hs with rfl | ⟨rfl, -⟩
      · decide
      · exact fun a ha ↦ by cases ha
    refine (h.fused hc ht hn).lexed_bare ⟨hstart, sealed_blank rfl _, fun u hu hk ↦ ?_,
      fun _ _ _ ↦ hline⟩
    rw [List.getLast?_concat] at hu
    rw [← Option.some.inj hu] at hk
    cases hk

/-- Whether `sep` keeps expressions apart. -/
def Separates (sep : List Token) (ls : List (List Token)) : Prop :=
  sep = [comma] ∨ sep = [] ∧ ∀ l ∈ ls.tail, ∀ t ∈ l.head?, t.kind = .conjunction

theorem lexed_printed (hi : ∀ l ∈ ls, Inline l ∧ codeOf l ≠ []) (hs : Separates sep ls)
    (hne : ls ≠ []) (hu : ∀ l, Follows l ps) : Lexed (printed sep ls ++ ps) := by
  fun_induction printed sep ls with
  | case1 => exact absurd rfl hne
  | case2 l => exact (hi l (List.mem_singleton.2 rfl)).1.lexed_bare (hu l)
  | case3 l m r ih =>
    obtain ⟨hl, hi⟩ := List.forall_mem_cons.1 hi
    have hm := (hi m List.mem_cons_self)
    have ih := ih hi (hs.imp_right fun ⟨h₁, h₂⟩ ↦ ⟨h₁, fun l hl ↦ h₂ l (List.mem_of_mem_tail hl)⟩)
      (by simp)
    obtain ⟨t, m, rfl⟩ : ∃ t m', m = t :: m' := by
      cases m with
      | nil => exact absurd rfl hm.2
      | cons t m => exact ⟨t, m, rfl⟩
    obtain ⟨u, us, e, hk⟩ := head_printed (r := r) hm.2 sep
    rw [e] at ih
    rw [List.append_assoc, List.cons_append, e]
    have ha : sep = [comma] ∨ sep = [] ∧ ahead (u :: (us ++ ps)) = [] := by
      refine hs.imp_right fun hs ↦ ⟨hs.1, ?_⟩
      exact ih.ahead_conjunction (hk.trans (hs.2 (t :: m) List.mem_cons_self t rfl))
    refine hl.1.lexed_punctuated ha ih fun v hv ↦ ?_
    rw [← Option.some.inj hv, Token.isBlank, hk]
    exact hm.1.isBlank_eq_false List.mem_cons_self

theorem inked_blanks (h : ∀ t ∈ a, t.kind = .blank) : inked a = [] :=
  List.filter_eq_nil_iff.2 fun t ht ↦ by simp [Token.isBlank, h t ht]

theorem inked_gapAfter (p : Option Token) (t : Token) : inked (gapAfter p t) = [] := by
  rcases gapAfter_eq p t with e | e <;> rw [e] <;> rfl

theorem inked_eq_self (h : ∀ t ∈ l, t.isBlank = false) : inked l = l :=
  List.filter_eq_self.2 fun t ht ↦ by simp [h t ht]

theorem inked_spaced (h : ∀ t ∈ l, t.isBlank = false) (p : Option Token) :
    inked (spaced p l) = l := by
  induction l generalizing p with
  | nil => rfl
  | cons t l ih =>
    obtain ⟨ht, h⟩ := List.forall_mem_cons.1 h
    have hend : inked (lineEnd t) = [] := by
      rw [lineEnd]
      split <;> rfl
    rw [spaced, inked_append, inked_gapAfter, inked_cons ht, inked_append, hend, ih h]
    rfl

theorem inked_bare {i : List Token} {t : Token} (h : ∀ u ∈ i ++ [t], u.isBlank = false)
    (p : Option Token) :
    inked (bare p (i ++ [t])) = i ++ [t.trimmed] := by
  have ht : t.trimmed.isBlank = false := h t (by simp)
  rw [bare_concat, inked_append, inked_append, inked_gapAfter,
    inked_spaced fun u hu ↦ h u (List.mem_append_left _ hu), inked_cons ht]
  rfl

theorem abutting_append {a b : List Token} (ha : Abutting a) (hb : Abutting b)
    (h : ∀ t ∈ a.getLast?, ∀ u ∈ b.head?, Beside t u) : Abutting (a ++ b) := by
  induction a with
  | nil => exact hb
  | cons t a ih =>
    cases a with
    | nil =>
      cases b with
      | nil => trivial
      | cons u b => exact ⟨h t rfl u rfl, hb⟩
    | cons v a => exact ⟨ha.1, ih ha.2 (by simpa using h)⟩

theorem IsExpr.congr (h : IsExpr x) (hc : codeOf y = codeOf x) (ha : Abutting (inked y)) :
    IsExpr y :=
  ⟨hc ▸ h.kinds, hc ▸ h.bang, hc ▸ h.balanced, hc ▸ h.inner, ha⟩

theorem isExpr_nil : IsExpr [] := ⟨nofun, nofun, rfl, covered_nil, trivial⟩

theorem IsExpr.append (ha : IsExpr a) (hb : IsExpr b)
    (h : ∀ t ∈ (inked a).getLast?, ∀ u ∈ (inked b).head?, t.kind = .comment ∨ u.kind = .comment) :
    IsExpr (a ++ b) where
  kinds := by
    rw [codeOf_append]
    exact List.forall_mem_append.2 ⟨ha.kinds, hb.kinds⟩
  bang := by
    rw [codeOf_append]
    exact List.forall_mem_append.2 ⟨ha.bang, hb.bang⟩
  balanced := by
    rw [codeOf_append, Balanced, depthRun_append, ha.balanced]
    exact hb.balanced
  inner := by
    rw [codeOf_append, covered_append, depthAfter_of_depthRun ha.balanced]
    exact ⟨ha.inner, hb.inner⟩
  abutting := by
    rw [inked_append]
    exact abutting_append ha.abutting hb.abutting fun t ht u hu ↦ beside_comment (h t ht u hu)

theorem IsExpr.blanks (h : IsExpr x) (hb : ∀ t ∈ b, t.kind = .blank) : IsExpr (x ++ b) :=
  h.congr (by rw [codeOf_append, codeOf_blanks hb, List.append_nil])
    (by rw [inked_append, inked_blanks hb, List.append_nil]; exact h.abutting)

theorem codeOf_comment {t : Token} (ht : t.kind = .comment) :
    codeOf [space, t, lineStart] = [] := by
  simp [codeOf, ht, space, lineStart]

/-- Tokens that say nothing and that an item can follow. -/
theorem isExpr_comment {t : Token} (ht : t.kind = .comment) : IsExpr [space, t, lineStart] := by
  have hb : t.isBlank = false := by simp [Token.isBlank, ht]
  have hi : inked [space, t, lineStart] = [t] := by
    rw [inked_cons_blank rfl, inked_cons hb]
    rfl
  exact isExpr_nil.congr (codeOf_comment ht) (hi ▸ trivial)

theorem IsExpr.bare (h : IsExpr l) (hi : Inline l) (p : Option Token) : IsExpr (bare p l) := by
  refine h.congr (hi.codeOf_bare p) ?_
  have ha := h.abutting
  rw [inked_eq_self fun t ht ↦ hi.isBlank_eq_false ht] at ha
  rcases List.eq_nil_or_concat l with rfl | ⟨i, t, rfl⟩
  · trivial
  · rw [List.concat_eq_append] at hi ha ⊢
    rw [inked_bare fun u hu ↦ hi.isBlank_eq_false hu]
    by_cases hc : t.kind = .comment
    · exact abutting_concat ha rfl hc
    · rwa [trimmed_of_code (hi.alone t (by simp)) (hi.kind_ne_blank (by simp)) hc]

theorem IsExpr.left {i : List Token} {t : Token} (h : IsExpr (i ++ [t])) (hi : Inline (i ++ [t]))
    (ht : t.isLineComment = true) : IsExpr i := by
  refine h.congr (by rw [codeOf_append, codeOf_lineComment ht, List.append_nil]) ?_
  rw [inked_eq_self fun u hu ↦ hi.left.isBlank_eq_false hu]
  exact hi.left.abutting

theorem IsExpr.fused {j : List Token} {c t : Token} (h : IsExpr (j ++ [c] ++ [t]))
    (hi : Inline (j ++ [c] ++ [t])) (hc : c.isLineComment = true) (ht : t.isLineComment = true)
    (hs : ∀ a ∈ textOf sep, a ≠ '\n') :
    IsExpr (j ++ [fuse sep c t]) := by
  have hf := hi.fused hc ht hs
  refine h.congr ?_ ?_
  · rw [codeOf_append, codeOf_append, codeOf_append, codeOf_lineComment hc, codeOf_lineComment ht]
    simp [codeOf, fuse]
  · rw [inked_eq_self fun u hu ↦ hf.isBlank_eq_false hu]
    exact hf.abutting

/-- An item can follow: the tokens say something whole and end in a comment, if in anything. -/
structure Opens (pre : List Token) : Prop where
  expr : IsExpr pre
  last : ∀ t ∈ (inked pre).getLast?, t.kind = .comment

theorem Opens.append (h : Opens pre) (hb : IsExpr b) : IsExpr (pre ++ b) :=
  h.expr.append hb fun t ht _ _ ↦ .inl (h.last t ht)

theorem opens_blanks (h : ∀ t ∈ pre, t.kind = .blank) : Opens pre := by
  refine ⟨isExpr_nil.congr (codeOf_blanks h) (by rw [inked_blanks h]; trivial), ?_⟩
  rw [inked_blanks h]
  nofun

theorem opens_comment {t : Token} (ht : t.kind = .comment) : Opens [space, t, lineStart] := by
  have hb : t.isBlank = false := by simp [Token.isBlank, ht]
  refine ⟨isExpr_comment ht, fun u hu ↦ ?_⟩
  rw [inked_cons_blank rfl, inked_cons hb] at hu
  exact Option.some.inj hu ▸ ht

theorem isItem_relaidList (hl : ∀ l ∈ ls, IsItem l ∧ Inline l) (hp : Opens pre)
    (ht : ∀ t ∈ tail, t.kind = .blank) :
    ∀ x ∈ relaidList pre tail ls, IsItem x := by
  have hcode : ∀ {l : List Token}, Inline l → codeOf l ≠ [] →
      ∀ pre, codeOf (pre ++ bare none l) ≠ [] := by
    intro l hi hc pre
    rw [codeOf_append, hi.codeOf_bare]
    simp [hc]
  fun_induction relaidList pre tail ls with
  | case1 => nofun
  | case2 pre l =>
    obtain ⟨hl, hi⟩ := hl l List.mem_cons_self
    refine List.forall_mem_singleton.2 ⟨(hp.append (hl.toIsExpr.bare hi none)).blanks ht, ?_⟩
    rw [codeOf_append, codeOf_blanks ht, List.append_nil]
    exact hcode hi hl.code pre
  | case3 pre l m r e ih =>
    obtain ⟨⟨hl, hi⟩, hr⟩ := List.forall_mem_cons.1 hl
    exact List.forall_mem_cons.2
      ⟨⟨hp.append (hl.toIsExpr.bare hi none), hcode hi hl.code pre⟩,
        ih hr (opens_blanks (by decide))⟩
  | case4 pre l m r i t e ih =>
    obtain ⟨⟨hl, hi⟩, hr⟩ := List.forall_mem_cons.1 hl
    obtain ⟨rfl, ht, -⟩ := lineEnding_one e
    have hc : codeOf i ≠ [] := by
      have := hl.code
      rwa [codeOf_append, codeOf_lineComment ht, List.append_nil] at this
    exact List.forall_mem_cons.2 ⟨⟨hp.append ((hl.toIsExpr.left hi ht).bare hi.left none),
      hcode hi.left hc pre⟩,
      ih hr (opens_comment (show t.kind = .comment from kind_of_isLineComment ht))⟩
  | case5 pre l m r j c t e ih =>
    obtain ⟨⟨hl, hi⟩, hr⟩ := List.forall_mem_cons.1 hl
    obtain ⟨rfl, hc, ht⟩ := lineEnding_two e
    have hs : ∀ a ∈ textOf [comma], a ≠ '\n' := by decide
    have hf := hi.fused hc ht hs
    refine ih hr ⟨(hp.append ((hl.toIsExpr.fused hi hc ht hs).bare hf none)).blanks (by decide),
      fun u hu ↦ ?_⟩
    rw [inked_append, inked_append, inked_bare fun u hu ↦ hf.isBlank_eq_false hu,
      inked_cons_blank rfl] at hu
    simp only [inked, List.filter_nil, List.append_nil, List.getLast?_append,
      List.getLast?_singleton, Option.some_or] at hu
    exact Option.some.inj hu ▸ rfl

theorem codeOf_fused {j : List Token} {c t : Token} (hc : c.isLineComment = true)
    (ht : t.isLineComment = true) (sep : List Token) :
    codeOf (j ++ [fuse sep c t]) = codeOf (j ++ [c] ++ [t]) := by
  rw [codeOf_append, codeOf_append, codeOf_append, codeOf_lineComment hc, codeOf_lineComment ht]
  simp [codeOf, fuse]

theorem IsExpr.punctuated (h : IsExpr l) (hi : Inline l) (p : Option Token) :
    IsExpr (punctuated p [] l) ∧ codeOf (punctuated p [] l) = codeOf l := by
  rw [QueryTemplate.punctuated]
  cases e : lineEnding l with
  | code =>
    simp only [List.append_nil]
    exact ⟨h.bare hi p, hi.codeOf_bare p⟩
  | one i t =>
    obtain ⟨rfl, ht, -⟩ := lineEnding_one e
    have hk : t.trimmed.kind = .comment := kind_of_isLineComment (t := t) ht
    have hi₂ : inked [space, t.trimmed] = [t.trimmed] := by
      rw [inked_cons_blank rfl, inked_cons (by simp [Token.isBlank, hk])]
      rfl
    have hc₂ : codeOf [space, t.trimmed] = [] := by simp [codeOf, hk, space]
    have hs : IsExpr [space, t.trimmed] := isExpr_nil.congr hc₂ (by rw [hi₂]; trivial)
    simp only [List.append_nil, codeOf_append, hc₂, hi.left.codeOf_bare, codeOf_lineComment ht,
      and_true]
    refine ((h.left hi ht).bare hi.left p).append hs fun _ _ u hu ↦ ?_
    rw [hi₂] at hu
    exact .inr (Option.some.inj hu ▸ hk)
  | two j c t =>
    obtain ⟨rfl, hc, ht⟩ := lineEnding_two e
    have hs : ∀ a ∈ textOf [], a ≠ '\n' := by simp
    have hf := hi.fused hc ht hs
    exact ⟨(h.fused hi hc ht hs).bare hf p, by rw [← codeOf_fused hc ht []]; exact hf.codeOf_bare p⟩

theorem lineEnding_cons {t : Token} (ht : t.isLineComment = false) (hne : l ≠ []) :
    lineEnding (t :: l) = match lineEnding l with
      | .code => .code
      | .one i u => .one (t :: i) u
      | .two j c u => .two (t :: j) c u := by
  obtain ⟨r, rfl⟩ : ∃ r, l = r.reverse := ⟨l.reverse, l.reverse_reverse.symm⟩
  rw [lineEnding, lineEnding, List.reverse_cons, List.reverse_reverse]
  rcases r with _ | ⟨u, _ | ⟨c, r⟩⟩
  · exact absurd rfl hne
  · simp only [List.cons_append, List.nil_append, ht]
    cases u.isLineComment <;> rfl
  · simp only [List.cons_append]
    cases u.isLineComment
    · rfl
    · cases c.isLineComment <;> simp

theorem bare_cons_code {t : Token} (ht : t.kind ≠ .comment) (hne : l ≠ []) :
    bare none (t :: l) = t :: bare (some t) l := by
  obtain ⟨u, l, rfl⟩ := List.exists_cons_of_ne_nil hne
  rw [QueryTemplate.bare, lineEnd, if_neg ht]
  rfl

theorem punctuated_cons {t : Token} (ht : t.kind ≠ .comment) (hc : codeOf l ≠ [])
    (sep : List Token) :
    punctuated none sep (t :: l) = t :: punctuated (some t) sep l := by
  have hne : l ≠ [] := by
    rintro rfl
    exact hc rfl
  rw [punctuated, lineEnding_cons (by simp [isLineComment, ht]) hne, punctuated]
  cases e : lineEnding l with
  | code =>
    simp only
    rw [bare_cons_code ht hne]
    rfl
  | one i u =>
    obtain ⟨rfl, hu, -⟩ := lineEnding_one e
    have hi : i ≠ [] := by
      rintro rfl
      exact hc (codeOf_lineComment hu)
    simp only
    rw [bare_cons_code ht hi]
    rfl
  | two j c u =>
    simp only
    rw [List.cons_append, bare_cons_code ht (by simp)]

/-- The predicates after the first one carry their own `AND` or `OR` still. -/
theorem isConjunct_relaidConjuncts (hl : ∀ l ∈ ls, IsConjunct l ∧ Inline l)
    (ht : ∀ t ∈ tail, t.kind = .blank) :
    (∀ x ∈ relaidConjuncts [] tail ls, IsConjunct x) ∧
      (relaidConjuncts [] tail ls).map codeOf = ls.map codeOf := by
  have hstart : ∀ t ∈ [lineStart], t.kind = .blank := by decide
  have key : ∀ (l : List Token) (b : List Token), IsConjunct l → Inline l →
    (∀ t ∈ b, t.kind = .blank) →
      (IsConjunct (bare none l ++ b) ∧ codeOf (bare none l ++ b) = codeOf l) ∧
        IsConjunct (punctuated none [] l ++ b) ∧ codeOf (punctuated none [] l ++ b) = codeOf l := by
    rintro l b ⟨t, y, rfl, ht, hy⟩ hi hb
    have hc : t.kind ≠ .comment := by simp [ht]
    have hbl : t.kind ≠ .blank := by simp [ht]
    have hne : y ≠ [] := by
      rintro rfl
      exact hy.code rfl
    obtain ⟨h₁, h₂⟩ := hy.toIsExpr.punctuated hi.tail (some t)
    have h₃ := hi.tail.codeOf_bare (some t)
    have hcb : ∀ z, codeOf (t :: z ++ b) = t :: codeOf z := fun z ↦ by
      rw [List.cons_append, codeOf_cons_code hbl hc, codeOf_append, codeOf_blanks hb,
        List.append_nil]
    have hcode : ∀ z, codeOf z = codeOf y → codeOf (z ++ b) ≠ [] := fun z hz ↦ by
      rw [codeOf_append, codeOf_blanks hb, List.append_nil, hz]
      exact hy.code
    rw [bare_cons_code hc hne, punctuated_cons hc hy.code, hcb, hcb, codeOf_cons_code hbl hc, h₂,
      h₃]
    exact ⟨⟨⟨t, _, rfl, ht, (hy.toIsExpr.bare hi.tail _).blanks hb, hcode _ h₃⟩, rfl⟩,
      ⟨t, _, rfl, ht, h₁.blanks hb, hcode _ h₂⟩, rfl⟩
  induction ls with
  | nil => exact ⟨nofun, rfl⟩
  | cons l ls ih =>
    obtain ⟨⟨hc, hi⟩, hr⟩ := List.forall_mem_cons.1 hl
    cases ls with
    | nil =>
      obtain ⟨h₁, h₂⟩ := (key l tail hc hi ht).1
      exact ⟨List.forall_mem_singleton.2 h₁, congrArg (fun x ↦ [x]) h₂⟩
    | cons m r =>
      obtain ⟨h₁, h₂⟩ := (key l [lineStart] hc hi hstart).2
      obtain ⟨h₃, h₄⟩ := ih hr
      exact ⟨List.forall_mem_cons.2 ⟨h₁, h₃⟩,
        by rw [relaidConjuncts, List.map_cons, List.map_cons, h₄]; exact congrArg (· :: _) h₂⟩

theorem isItem_relaidConjuncts (hl : IsItem l) (hi : Inline l)
    (hc : ∀ l ∈ ls, IsConjunct l ∧ Inline l) (hp : ∀ t ∈ pre, t.kind = .blank)
    (ht : ∀ t ∈ tail, t.kind = .blank) :
    ∃ x xs, relaidConjuncts pre tail (l :: ls) = x :: xs ∧ IsItem x ∧ (∀ y ∈ xs, IsConjunct y) ∧
      (x :: xs).map codeOf = (l :: ls).map codeOf := by
  have key : ∀ {y b : List Token}, IsExpr y → codeOf y = codeOf l → (∀ t ∈ b, t.kind = .blank) →
      IsItem (pre ++ y ++ b) ∧ codeOf (pre ++ y ++ b) = codeOf l := by
    intro y b hy hcode hb
    have hall : codeOf (pre ++ y ++ b) = codeOf l := by
      rw [codeOf_append, codeOf_append, codeOf_blanks hp, codeOf_blanks hb, List.append_nil, hcode]
      rfl
    exact ⟨⟨((opens_blanks hp).append hy).blanks hb, by rw [hall]; exact hl.code⟩, hall⟩
  cases ls with
  | nil =>
    obtain ⟨h₁, h₂⟩ := key (hl.toIsExpr.bare hi none) (hi.codeOf_bare none) ht
    exact ⟨_, _, rfl, h₁, nofun, congrArg (fun x ↦ [x]) h₂⟩
  | cons m r =>
    obtain ⟨h₁, h₂⟩ := hl.toIsExpr.punctuated hi none
    obtain ⟨h₃, h₄⟩ := key (b := [lineStart]) h₁ h₂ (by decide)
    obtain ⟨h₅, h₆⟩ := isConjunct_relaidConjuncts hc ht
    refine ⟨_, _, rfl, h₃, h₅, ?_⟩
    rw [List.map_cons, List.map_cons, h₆]
    exact congrArg (· :: _) h₄

theorem forall_codeOf_relaidList {P : Token → Prop} (hl : ∀ l ∈ ls, Inline l ∧ ∀ t ∈ codeOf l, P t)
    (hp : ∀ t ∈ codeOf pre, P t) (ht : ∀ t ∈ tail, t.kind = .blank) :
    ∀ x ∈ relaidList pre tail ls, ∀ t ∈ codeOf x, P t := by
  have hcat : ∀ {pre l : List Token}, (∀ t ∈ codeOf pre, P t) → Inline l → (∀ t ∈ codeOf l, P t) →
      ∀ t ∈ codeOf (pre ++ bare none l), P t := by
    intro pre l hp hi hl
    rw [codeOf_append, hi.codeOf_bare]
    exact List.forall_mem_append.2 ⟨hp, hl⟩
  fun_induction relaidList pre tail ls with
  | case1 => nofun
  | case2 pre l =>
    obtain ⟨hi, hl⟩ := hl l List.mem_cons_self
    rw [List.forall_mem_singleton, codeOf_append, codeOf_blanks ht, List.append_nil]
    exact hcat hp hi hl
  | case3 pre l m r e ih =>
    obtain ⟨⟨hi, hl⟩, hr⟩ := List.forall_mem_cons.1 hl
    exact List.forall_mem_cons.2 ⟨hcat hp hi hl, ih hr nofun⟩
  | case4 pre l m r i t e ih =>
    obtain ⟨⟨hi, hl⟩, hr⟩ := List.forall_mem_cons.1 hl
    obtain ⟨rfl, ht, -⟩ := lineEnding_one e
    rw [codeOf_append, codeOf_lineComment ht, List.append_nil] at hl
    refine List.forall_mem_cons.2 ⟨hcat hp hi.left hl, ih hr ?_⟩
    rw [codeOf_comment (t := t.trimmed) (kind_of_isLineComment (t := t) ht)]
    nofun
  | case5 pre l m r j c t e ih =>
    obtain ⟨⟨hi, hl⟩, hr⟩ := List.forall_mem_cons.1 hl
    obtain ⟨rfl, hc, ht⟩ := lineEnding_two e
    rw [← codeOf_fused hc ht [comma]] at hl
    refine ih hr ?_
    rw [codeOf_append, codeOf_blanks (show ∀ t ∈ [lineStart], t.kind = .blank by decide),
      List.append_nil]
    exact hcat hp (hi.fused hc ht (by decide)) hl

def LineEnding.isTwo : LineEnding → Bool
  | .two .. => true
  | _ => false

/-- Each item but the last that ends in two line comments becomes one with the next. -/
theorem length_relaidList (pre tail : List Token) (ls : List (List Token)) :
    (relaidList pre tail ls).length + ls.dropLast.countP (fun l ↦ (lineEnding l).isTwo) =
      ls.length := by
  fun_induction relaidList pre tail ls with
  | case1 | case2 => rfl
  | case3 pre l m r e ih | case4 pre l m r i t e ih =>
    rw [List.dropLast_cons_of_ne_nil (by simp),
      List.countP_cons_of_neg (by simp [e, LineEnding.isTwo])]
    simp only [List.length_cons] at ih ⊢
    omega
  | case5 pre l m r j c t e ih =>
    rw [List.dropLast_cons_of_ne_nil (by simp),
      List.countP_cons_of_pos (by simp [e, LineEnding.isTwo])]
    simp only [List.length_cons] at ih ⊢
    omega

theorem codeOf_relaidList (hi : ∀ l ∈ ls, Inline l) (hp : codeOf pre = [])
    (ht : ∀ t ∈ tail, t.kind = .blank) (hn : ∀ l ∈ ls.dropLast, (lineEnding l).isTwo = false) :
    (relaidList pre tail ls).map codeOf = ls.map codeOf := by
  have hlast : ∀ {l m : List Token} {r : List (List Token)},
      (∀ x ∈ (l :: m :: r).dropLast, (lineEnding x).isTwo = false) →
          ∀ x ∈ (m :: r).dropLast, (lineEnding x).isTwo = false := by
    intro l m r h x hx
    rw [List.dropLast_cons_of_ne_nil (by simp)] at h
    exact h x (List.mem_cons_of_mem _ hx)
  fun_induction relaidList pre tail ls with
  | case1 => rfl
  | case2 pre l =>
    rw [List.map_singleton, codeOf_append, codeOf_append, hp, (hi l List.mem_cons_self).codeOf_bare,
      codeOf_blanks ht, List.append_nil]
    rfl
  | case3 pre l m r e ih =>
    obtain ⟨hl, hr⟩ := List.forall_mem_cons.1 hi
    rw [List.map_cons, ih hr rfl (hlast hn), codeOf_append, hp, hl.codeOf_bare]
    rfl
  | case4 pre l m r i t e ih =>
    obtain ⟨hl, hr⟩ := List.forall_mem_cons.1 hi
    obtain ⟨rfl, ht, -⟩ := lineEnding_one e
    have hc := codeOf_comment (t := t.trimmed) (kind_of_isLineComment (t := t) ht)
    have hcode : codeOf (i ++ [t]) = codeOf i := by
      rw [codeOf_append, codeOf_lineComment ht, List.append_nil]
    rw [List.map_cons, ih hr hc (hlast hn), codeOf_append, hp, hl.left.codeOf_bare,
      List.map_cons (l := m :: r) (a := i ++ [t]), hcode]
    rfl
  | case5 pre l m r j c t e ih =>
    have := hn l List.mem_cons_self
    rw [e] at this
    cases this

/-- Printing a list keeps what each item says but where two line comments take a comma with them. -/
theorem codeOf_relaidList_iff (hi : ∀ l ∈ ls, Inline l) (hp : codeOf pre = [])
    (ht : ∀ t ∈ tail, t.kind = .blank) :
    (relaidList pre tail ls).map codeOf = ls.map codeOf ↔
      ∀ l ∈ ls.dropLast, (lineEnding l).isTwo = false := by
  refine ⟨fun h l hl ↦ Bool.eq_false_iff.2 fun htwo ↦ ?_, codeOf_relaidList hi hp ht⟩
  have hlen := length_relaidList pre tail ls
  have hpos : 0 < ls.dropLast.countP fun l ↦ (lineEnding l).isTwo :=
    List.countP_pos_iff.2 ⟨l, hl, htwo⟩
  have := congrArg List.length h
  simp only [List.length_map] at this
  omega

end

end QueryTemplate
