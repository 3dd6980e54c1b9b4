import QueryTemplate.Proofs.Filter.Condition
import QueryTemplate.Proofs.Token.Splice
namespace QueryTemplate

open Token Grammar

/-- The tokens of a text that other texts can stand beside with a space between them. -/
structure IsPiece (ts : List Token) : Prop where
  lexed : Lexed ts
  ne_nil : ts ≠ []
  head : ∀ t ∈ ts.head?, t.isBlank = false
  last : ∀ t ∈ ts.getLast?, t.isLineComment = false
  opener : opensComment ts = false
  depth : depthAfter 0 ts = 0

/-- The tokens of a text that is one predicate wherever it stands. -/
structure IsPredicate (ts : List Token) : Prop extends IsPiece ts where
  conjunction : Covered (·.kind = .conjunction) 0 ts

/-- The tokens of a predicate that carries its own `AND` or `OR`. -/
structure IsLinked (ts : List Token) : Prop extends IsPiece ts where
  first : ∃ t us, ts = t :: us ∧ t.kind = .conjunction ∧ Covered (·.kind = .conjunction) 0 us

instance (ts : List Token) : Decidable (IsPiece ts) :=
  decidable_of_iff (Lexed ts ∧ ts ≠ [] ∧ (∀ t ∈ ts.head?, t.isBlank = false) ∧
      (∀ t ∈ ts.getLast?, t.isLineComment = false) ∧ opensComment ts = false ∧ depthAfter 0 ts = 0)
    ⟨fun ⟨a, b, c, d, e, f⟩ ↦ ⟨a, b, c, d, e, f⟩, fun ⟨a, b, c, d, e, f⟩ ↦ ⟨a, b, c, d, e, f⟩⟩

instance (ts : List Token) : Decidable (IsPredicate ts) :=
  decidable_of_iff (IsPiece ts ∧ Covered (·.kind = .conjunction) 0 ts)
    ⟨fun ⟨a, b⟩ ↦ ⟨a, b⟩, fun ⟨a, b⟩ ↦ ⟨a, b⟩⟩

/-- `AND` as it is written between predicates. -/
def Token.and : Token := ⟨.conjunction, "AND"⟩

theorem lexed_and : Lexed [Token.and] := by decide

theorem leadingWords_and : leadingWords Token.and.text = ["and".toList] := by
  have h : ∀ c ∈ "AND".toList, Text.isNameChar c = true := by decide
  exact (congrArg leadingWords (List.append_nil _).symm).trans
    (leadingWords_append_of_name h (Text.stops_nil _))

theorem Lexed.and_cons {ts : List Token} (h : Lexed ts)
    (hs : Text.Stops Text.isNameChar (textOf ts)) :
    Lexed (Token.and :: ts) :=
  lexed_and.fixed_exchange rfl (by rw [leadingWords_and]; decide) h hs

/-- Words before which a phrase ends. -/
theorem phraseRest_conjunction {t : Token} {ts : List Token} (h : Lexed (t :: ts))
    (hk : t.kind = .conjunction) : phraseRest (tokenWords (t :: ts)) = [] := by
  have hb : t.isBlank = false := by simp [Token.isBlank, hk]
  rw [tokenWords_word hb (h.isWord_of_kind (by rw [hk]; rfl))]
  have hw := h.conjunction_words hk
  simp only [List.mem_cons, List.not_mem_nil, or_false] at hw
  rcases hw with hw | hw <;> rw [hw] <;> rfl

theorem depthAfter_withSpace (d : Nat) (ts : List Token) :
    depthAfter d (withSpace ts) = depthAfter d ts := by
  fun_induction withSpace ts generalizing d with
  | case1 => rfl
  | case2 t h =>
    have hk : t.kind = .blank := by simpa [Token.isBlank] using h
    simp [standing, after, isOpenParen, isCloseParen, hk]
  | case3 t h => simp [standing, after, isOpenParen, isCloseParen, space]
  | case4 t u ts ih => exact ih _

theorem covered_withSpace {d : Nat} {p : Token → Bool} (hp : ∀ t, t.isBlank = true → p t = false)
    {ts : List Token} (h : Covered p d ts) : Covered p d (withSpace ts) := by
  fun_induction withSpace ts generalizing d with
  | case1 => exact covered_cons.2 ⟨fun _ ↦ hp _ rfl, covered_nil⟩
  | case2 t => exact covered_cons.2 ⟨fun _ ↦ hp _ rfl, covered_nil⟩
  | case3 t =>
    exact covered_cons.2 ⟨(covered_cons.1 h).1, covered_cons.2 ⟨fun _ ↦ hp _ rfl, covered_nil⟩⟩
  | case4 t u ts ih => exact covered_cons.2 ⟨(covered_cons.1 h).1, ih (covered_cons.1 h).2⟩

namespace Formula

theorem codeOf_append (a b : List Token) : codeOf (a ++ b) = codeOf a ++ codeOf b :=
  List.filter_append ..

theorem codeOf_codeOf (ts : List Token) : codeOf (codeOf ts) = codeOf ts := by simp [codeOf]

theorem codeOf_withSpace (ts : List Token) : codeOf (withSpace ts) = codeOf ts := by
  fun_induction withSpace ts with
  | case1 => rfl
  | case2 t h =>
    have hk : t.kind = .blank := by simpa [Token.isBlank] using h
    simp [codeOf, hk]
  | case3 t h => simp [codeOf, space, List.filter_cons]
  | case4 t u ts ih =>
    simp only [codeOf, List.filter_cons] at ih ⊢
    rw [ih]

variable {p : Token → Bool} {d : Nat}

/-- Blanks and comments are no headings and change no depth. -/
theorem sections_codeOf (hp : ∀ t, p t = true → t.kind ≠ .blank ∧ t.kind ≠ .comment)
    (ts : List Token) :
    sections p d (codeOf ts) =
      ⟨codeOf (sections p d ts).lead, (sections p d ts).parts.map fun q ↦ (q.1, codeOf q.2)⟩ := by
  induction ts generalizing d with
  | nil => rfl
  | cons t ts ih =>
    by_cases h : t.kind ≠ .blank ∧ t.kind ≠ .comment
    · have e : ∀ us, codeOf (t :: us) = t :: codeOf us := fun us ↦ by simp [codeOf, h]
      rw [e, sections, sections, ih]
      split
      · rfl
      · simp [e]
    · have e : ∀ us, codeOf (t :: us) = codeOf us := fun us ↦ by
        rw [codeOf, List.filter_cons_of_neg (by simpa using h)]
        rfl
      have hd : after (standing d t) t = d := by
        simp only [ne_eq, Decidable.not_and_iff_not_or_not, Decidable.not_not] at h
        rcases h with h | h <;> simp [standing, after, isOpenParen, isCloseParen, h]
      have hf : (standing d t = 0 && p t : Bool) = false := by
        cases hpt : p t with
        | false => simp
        | true => exact absurd (hp t hpt) h
      rw [e, sections, hd, ih, hf]
      simp [e]

theorem splitOutside_codeOf (hp : ∀ t, p t = true → t.kind ≠ .blank ∧ t.kind ≠ .comment)
    (ts : List Token) :
    splitOutside p (codeOf ts) = (splitOutside p ts).map codeOf := by
  simp [splitOutside, sections_codeOf hp, Sections.runs]

theorem kind_of_isAnd {t : Token} (h : isAnd t = true) : t.kind = .conjunction := by
  simp only [isAnd, Bool.and_eq_true, decide_eq_true_eq] at h
  exact h.1

theorem kind_of_isOr {t : Token} (h : isOr t = true) : t.kind = .conjunction := by
  simp only [isOr, Bool.and_eq_true, decide_eq_true_eq] at h
  exact h.1

theorem after_of_isOr (t : Token) (h : isOr t = true) : after 0 t = 0 := by
  simp [after, isOpenParen, kind_of_isOr h]

theorem conjuncts_codeOf (ts : List Token) : conjuncts (codeOf ts) = conjuncts ts := by
  rw [conjuncts, splitOutside_codeOf (fun t h ↦ by simp [kind_of_isAnd h])]
  simp [conjuncts, codeOf_codeOf]

/-- Blanks and comments do not change how a condition is read. -/
theorem ofTokens_codeOf (ts : List Token) : ofTokens (codeOf ts) = ofTokens ts := by
  rw [ofTokens, splitOutside_codeOf (fun t h ↦ by simp [kind_of_isOr h])]
  simp [ofTokens, conjuncts_codeOf]

theorem ofTokens_ne_nil (ts : List Token) : ofTokens ts ≠ [] := by
  simp [ofTokens, splitOutside_ne_nil]

/-- A predicate alone. -/
theorem conjuncts_of_covered {ts : List Token} (h : Covered (·.kind = .conjunction) 0 ts) :
    conjuncts ts = [codeOf ts] := by
  rw [conjuncts, splitOutside_of_covered (h.mono fun t h ↦ by simp [kind_of_isAnd h])]
  rfl

theorem ofTokens_of_covered {ts : List Token} (h : Covered (·.kind = .conjunction) 0 ts) :
    ofTokens ts = [[codeOf ts]] := by
  rw [ofTokens, splitOutside_of_covered (h.mono fun t h ↦ by simp [kind_of_isOr h]),
    List.map_singleton, conjuncts_of_covered h]

/-- A predicate and `AND` in front of a condition are a conjunct of its first disjunct. -/
theorem ofTokens_append_and {a : List Token} (ha : Covered (·.kind = .conjunction) 0 a)
    (hd : depthAfter 0 a = 0) (b : List Token) :
    ofTokens (a ++ Token.and :: b) = (ofTokens b).modifyHead (codeOf a :: ·) := by
  have hor : Covered isOr 0 (a ++ [Token.and]) :=
    covered_append.2 ⟨ha.mono fun t h ↦ by simp [kind_of_isOr h], by rw [hd]; decide⟩
  have hz : depthAfter 0 (a ++ [Token.and]) = 0 := by
    rw [depthAfter_append, hd]
    rfl
  have hconj : ∀ c, conjuncts (a ++ [Token.and] ++ c) = codeOf a :: conjuncts c := fun c ↦ by
    rw [List.append_assoc, conjuncts,
      splitOutside_append (ha.mono fun t h ↦ by simp [kind_of_isAnd h]) hd, List.singleton_append,
      splitOutside_cons_heading rfl rfl (by decide)]
    simp [conjuncts]
  rw [← List.singleton_append, ← List.append_assoc, ofTokens, splitOutside_append hor hz, ofTokens]
  cases splitOutside isOr b with
  | nil => rfl
  | cons d ds => simp only [List.modifyHead_cons, List.map_cons, hconj]

/-- `AND` and a predicate after a condition are a conjunct of its last disjunct. -/
theorem ofTokens_append_last {a b : List Token} (hd : depthAfter 0 a = 0)
    (hb : Covered (·.kind = .conjunction) 0 b) : ∃ ds d, ofTokens a = ds ++ [d] ∧
      ofTokens (a ++ Token.and :: b) = ds ++ [d ++ [codeOf b]] := by
  obtain ⟨rs, r, h₁, h₂, h₃⟩ := splitOutside_append_last after_of_isOr hd
  refine ⟨rs.map conjuncts, conjuncts r, by simp [ofTokens, h₁], ?_⟩
  have hor : Covered isOr 0 (Token.and :: b) :=
    covered_cons.2 ⟨fun _ ↦ by decide, hb.mono fun t h ↦ by simp [kind_of_isOr h]⟩
  obtain ⟨qs, q, g₁, -, g₃⟩ := splitOutside_append_last (p := isAnd)
    (fun t h ↦ by simp [after, isOpenParen, kind_of_isAnd h]) h₂
  have hconj : conjuncts (r ++ Token.and :: b) = conjuncts r ++ [codeOf b] := by
    rw [conjuncts, g₃, splitOutside_cons_heading rfl rfl (by decide),
      splitOutside_of_covered (hb.mono fun t h ↦ by simp [kind_of_isAnd h]), conjuncts, g₁]
    simp
  rw [ofTokens, h₃, splitOutside_of_covered hor]
  simp [hconj]

end Formula
end QueryTemplate
