import QueryTemplate.Proofs.Aggregation.Expansion
import QueryTemplate.Proofs.Query.Block
import QueryTemplate.Proofs.Query.Gathers
import QueryTemplate.Proofs.Query.Lines
import QueryTemplate.Proofs.Token.Exchange
namespace QueryTemplate

open Token Grammar

variable {a b ts : List Token} {o t : Token}

/-- Tokens may be followed by others that start with a delimiter if no phrase goes on with them. -/
theorem Lexed.followed (ha : Lexed a) (hb : Lexed b) (hs : Sealed (textOf b))
    (hw : ahead b = [] ∨ ∀ t ∈ a.getLast?, t.isWord = false)
    (hl : ∀ t ∈ a.getLast?, t.kind ≠ .blank ∧ t.kind ≠ .comment) (hc : opensComment a = false) : Lexed (a ++ b) := by
  have hslash : SlashFree (a ++ b) := slashFree_append hc hb.slashFree fun e ↦ by cases hs.1 '*' e
  rcases hw with hw | hw
  · exact ha.append hb hs hw hl hslash
  rcases List.eq_nil_or_concat a with rfl | ⟨us, t, rfl⟩
  · exact hb
  rw [List.concat_eq_append] at *
  obtain ⟨h₁, h₂⟩ := hl t (by simp)
  have hword : t.isWord = false := hw t (by simp)
  have hblank : t.isBlank = false := by simpa [Token.isBlank] using h₁
  have ht : Lexed (t :: b) := ha.suffix.before hb
    ⟨fun e ↦ absurd e h₁, fun e ↦ by simp [isLineComment, h₂] at e, fun e ↦ by simp [hword] at e,
      fun _ ↦ .inl hs.stops_numeric, fun _ _ _ _ ↦ .inr (.inr hs.1)⟩
  have hsame : SameStart [t] (t :: b) := by
    refine ⟨?_, ?_, ?_⟩
    · rw [textOf_cons, textOf_cons, ht.head_append, ht.head_append]
    · rw [tokenWords_symbol hblank hword, tokenWords_symbol hblank hword]
    · rw [textOf_cons, textOf_cons, textOf_nil, List.append_nil, Text.takeWhile_append_of_stops hs.stops_numeric]
  rw [List.append_assoc] at hslash ⊢
  exact (ha.append_exchange ht hsame hslash).1

theorem Lexed.openParen_cons (h : Lexed ts) (ho : o.isOpenParen = true) : Lexed (o :: ts) :=
  lexed_cons.2 ⟨readBefore_of_isOpenParen ho _, h⟩

theorem Lexed.closeParen_cons (h : Lexed ts) (ho : o.isCloseParen = true) : Lexed (o :: ts) := by
  refine lexed_cons.2 ⟨?_, h⟩
  obtain ⟨k, u⟩ := o
  obtain ⟨rfl, rfl, -⟩ := isBlank_of_isCloseParen ho
  exact munch_closing_iff.2 (.inl rfl)

theorem Lexed.comma_cons (h : Lexed ts) : Lexed (comma :: ts) :=
  lexed_cons.2 ⟨readBefore_of_isComma rfl _, h⟩

/-- `AS` takes no word after it. -/
theorem Lexed.as_cons (h : Lexed ts) (hb : ∀ t ∈ ts.head?, t.isBlank = false) :
    Lexed (Aggregation.nameToken "AS" :: space :: ts) := by
  refine lexed_cons.2 ⟨?_, h.space_cons hb⟩
  have hm : munch ("AS".toList ++ [' ']) = some (⟨.identifier, "AS"⟩, [' ']) := by decide +kernel
  have hw : leadingWords (Aggregation.nameToken "AS").text = ["as".toList] := by decide +kernel
  refine munch_word_congr (by decide) hm (stops_space _) ?_
  rw [hw]
  simp [classify, wordClasses, clauseWords, phraseWords, clausePhrases, joinWords, joinParts, optionalWords,
    startsPhrase, joinStrictness, joinKinds, joinModifiers, membershipPhrases, List.isPrefixOf]

namespace Aggregation

/-- Tokens that others can be put behind, with all of their parentheses closed. -/
structure IsRun (ts : List Token) : Prop where
  lexed : Lexed ts
  last : ∃ t ∈ ts.getLast?, t.kind ≠ .blank ∧ t.kind ≠ .comment
  opener : opensComment ts = false
  balanced : Balanced ts

/-- Tokens of expressions without comments: they open no clause, and no join or macro is read with them. -/
structure IsPiece (ts : List Token) : Prop extends IsRun ts where
  simple : ∀ t ∈ ts, t.kind ≠ .comment ∧ t.isSimple = true
  covered : Covered isReserved 0 ts

/-- Tokens that can stand in a list of expressions. -/
structure IsTerm (ts : List Token) : Prop extends IsPiece ts where
  head : ∀ t ∈ ts.head?, t.isBlank = false

/-- Tokens that can stand right behind an expression. -/
structure IsTail (ts : List Token) : Prop extends IsPiece ts where
  delimited : Sealed (textOf ts)

instance : Decidable (IsPiece ts) :=
  decidable_of_iff ((Lexed ts ∧ (∃ t ∈ ts.getLast?, t.kind ≠ .blank ∧ t.kind ≠ .comment) ∧ opensComment ts = false ∧ Balanced ts) ∧
    (∀ t ∈ ts, t.kind ≠ .comment ∧ t.isSimple = true) ∧ Covered isReserved 0 ts)
    ⟨fun ⟨⟨h₁, h₂, h₃, h₄⟩, h₅, h₆⟩ ↦ ⟨⟨h₁, h₂, h₃, h₄⟩, h₅, h₆⟩, fun h ↦ ⟨⟨h.lexed, h.last, h.opener, h.balanced⟩, h.simple, h.covered⟩⟩

instance : Decidable (IsTerm ts) :=
  decidable_of_iff (IsPiece ts ∧ ∀ t ∈ ts.head?, t.isBlank = false) ⟨fun h ↦ ⟨h.1, h.2⟩, fun h ↦ ⟨h.1, h.2⟩⟩

namespace IsRun

theorem ne_nil (h : IsRun ts) : ts ≠ [] := by
  rintro rfl
  obtain ⟨t, ht, -⟩ := h.last
  cases ht

theorem last_ne (h : IsRun ts) : ∀ t ∈ ts.getLast?, t.kind ≠ .blank ∧ t.kind ≠ .comment := by
  obtain ⟨u, hu, hb⟩ := h.last
  intro t ht
  obtain rfl := Option.some.inj (hu.symm.trans ht)
  exact hb

/-- A token in front that is no parenthesis. -/
theorem cons (h : IsRun ts) (ho : o.isOpenParen = false ∧ o.isCloseParen = false)
    (hs : o.text ≠ ['/'] ∨ (textOf ts).head? ≠ some '*') (hl : Lexed (o :: ts)) : IsRun (o :: ts) where
  lexed := hl
  last := by
    obtain ⟨u, hu, hb⟩ := h.last
    exact ⟨u, by rw [List.getLast?_cons_of_ne_nil h.ne_nil]; exact hu, hb⟩
  opener := opensComment_cons hs h.opener
  balanced := by
    rw [Balanced, depthRun, if_neg (by simp [ho]), if_neg (by simp [ho])]
    exact h.balanced

theorem append (ha : IsRun a) (hb : IsRun b) (hs : Sealed (textOf b))
    (hw : ahead b = [] ∨ ∀ t ∈ a.getLast?, t.isWord = false) : IsRun (a ++ b) where
  lexed := ha.lexed.followed hb.lexed hs hw ha.last_ne ha.opener
  last := by
    obtain ⟨u, hu, hblank⟩ := hb.last
    exact ⟨u, by rw [List.getLast?_append, Option.mem_def.1 hu]; rfl, hblank⟩
  opener := opensComment_join ha.opener hb.opener fun e ↦ by cases hs.1 '*' e
  balanced := by
    rw [Balanced, depthRun_append, ha.balanced]
    exact hb.balanced

/-- Parentheses around it. -/
theorem enclosed (h : IsRun ts) : IsRun (openParen :: (ts ++ [closeParen])) where
  lexed := by
    have hclose : Lexed [closeParen] := by decide
    refine Lexed.openParen_cons (h.lexed.followed hclose ?_ (.inl rfl) h.last_ne h.opener) rfl
    exact ⟨fun c hc ↦ Option.some.inj hc ▸ by decide, by decide⟩
  last := ⟨closeParen, by simp [List.getLast?_cons], by decide⟩
  opener := opensComment_cons (.inl (by decide)) (opensComment_join h.opener (by decide) (by decide))
  balanced := by
    rw [Balanced, depthRun_group rfl rfl h.balanced]
    rfl

end IsRun

/-- A token that is no bracket counts for neither parentheses nor clauses. -/
theorem covered_flat (ho : o.isFlat = true) (hk : o.kind ≠ .clause) :
    Covered isReserved 0 (o :: ts) ↔ Covered isReserved 0 ts := by
  obtain ⟨-, hj, ha, -⟩ := kind_of_isOrdinary (isOrdinary_of_flat ho)
  simp only [isFlat, Bool.and_eq_true, decide_eq_true_eq] at ho
  rw [covered_cons, standing_of_kind ho.2, after_of_kind ho.1.2]
  simp [isReserved, hk, hj, ha]

theorem not_paren_of_flat (ho : o.isFlat = true) : o.isOpenParen = false ∧ o.isCloseParen = false := by
  simp only [isFlat, Bool.and_eq_true, decide_eq_true_eq] at ho
  simp [isOpenParen, isCloseParen, ho]

theorem simple_of_flat (ho : o.isFlat = true) : o.kind ≠ .comment ∧ o.isSimple = true :=
  ⟨code_of_flat ho, isSimple_of_isOrdinary (isOrdinary_of_flat ho)⟩

namespace IsPiece

theorem code (h : IsPiece ts) (ht : t ∈ ts) : t.kind ≠ .comment := (h.simple t ht).1

/-- A sign, a word or a space in front. -/
theorem cons (h : IsPiece ts) (ho : o.isFlat = true) (hk : o.kind ≠ .clause)
    (hs : o.text ≠ ['/'] ∨ (textOf ts).head? ≠ some '*') (hl : Lexed (o :: ts)) : IsPiece (o :: ts) where
  toIsRun := h.toIsRun.cons (not_paren_of_flat ho) hs hl
  simple := List.forall_mem_cons.2 ⟨simple_of_flat ho, h.simple⟩
  covered := (covered_flat ho hk).2 h.covered

theorem append (ha : IsPiece a) (hb : IsTail b) (hw : ahead b = [] ∨ ∀ t ∈ a.getLast?, t.isWord = false) :
    IsPiece (a ++ b) where
  toIsRun := ha.toIsRun.append hb.toIsRun hb.delimited hw
  simple := List.forall_mem_append.2 ⟨ha.simple, hb.simple⟩
  covered := by
    rw [covered_append, depthAfter_of_depthRun ha.balanced]
    exact ⟨ha.covered, hb.covered⟩

theorem enclosed (h : IsPiece ts) : IsPiece (openParen :: (ts ++ [closeParen])) where
  toIsRun := h.toIsRun.enclosed
  simple := by
    simp only [List.forall_mem_cons, List.forall_mem_append]
    exact ⟨by decide, h.simple, by decide, nofun⟩
  covered := covered_enclosed rfl h.balanced ⟨rfl, rfl⟩

end IsPiece

theorem IsTerm.append (ha : IsTerm a) (hb : IsTail b) (hw : ahead b = [] ∨ ∀ t ∈ a.getLast?, t.isWord = false) :
    IsTerm (a ++ b) where
  toIsPiece := ha.toIsPiece.append hb hw
  head t ht := by
    obtain ⟨u, us, rfl⟩ := List.exists_cons_of_ne_nil ha.ne_nil
    exact ha.head t (by simpa using ht)

theorem IsTerm.enclosed (h : IsTerm ts) : IsTerm (openParen :: (ts ++ [closeParen])) :=
  ⟨h.toIsPiece.enclosed, fun _ ht ↦ Option.some.inj ht ▸ rfl⟩

/-- A token by itself. -/
theorem IsTerm.token (hl : Lexed [t]) (hf : t.isFlat = true) (hk : t.kind ≠ .clause ∧ t.kind ≠ .blank)
    (hs : t.text ≠ ['/']) : IsTerm [t] where
  lexed := hl
  last := ⟨t, rfl, hk.2, code_of_flat hf⟩
  opener := opensComment_cons (.inl hs) rfl
  balanced := by
    rw [Balanced, depthRun, if_neg (by simp [not_paren_of_flat hf]), if_neg (by simp [not_paren_of_flat hf])]
    rfl
  simple := List.forall_mem_singleton.2 (simple_of_flat hf)
  covered := (covered_flat hf hk.1).2 covered_nil
  head := by simpa [Token.isBlank] using hk.2

namespace IsTail

theorem space (h : IsTerm ts) : IsTail (Token.space :: ts) :=
  ⟨h.cons (by decide) (by decide) (.inl (by decide)) (h.lexed.space_cons h.head), sealed_blank rfl _⟩

theorem comma (h : IsTerm ts) : IsTail (QueryTemplate.comma :: Token.space :: ts) := by
  have hs := (space h).toIsPiece
  exact ⟨hs.cons (by decide) (by decide) (.inl (by decide)) hs.lexed.comma_cons, sealed_comma _⟩

theorem call (h : IsTerm ts) : IsTail (openParen :: (ts ++ [closeParen])) :=
  ⟨h.toIsPiece.enclosed, fun c hc ↦ Option.some.inj hc ▸ by decide, by simp [openParen]⟩

/-- A sign or a word between two expressions. -/
theorem between (h : IsTerm ts) (ho : o.isFlat = true) (hk : o.kind ≠ .clause ∧ o.isBlank = false)
    (hl : Lexed (o :: Token.space :: ts)) : IsTail (Token.space :: o :: Token.space :: ts) := by
  have hs := (space h).cons ho hk.1 (.inr (by simp [Token.space])) hl
  refine ⟨hs.cons (by decide) (by decide) (.inl (by decide)) (hl.space_cons ?_), sealed_blank rfl _⟩
  exact fun t ht ↦ Option.some.inj ht ▸ hk.2

end IsTail

/-- A text that can stand in a list of expressions. -/
def Term (s : Text) : Prop := ∃ ts, textOf ts = s ∧ IsTerm ts

namespace Term

variable {x y : Text}

theorem list (hx : Term x) (hy : Term y) : Term (x ++ ", " ++ y) := by
  obtain ⟨a, rfl, ha⟩ := hx
  obtain ⟨b, rfl, hb⟩ := hy
  exact ⟨_, by simp [comma, space], ha.append (.comma hb) (.inl (ahead_comma _))⟩

/-- A list of expressions. -/
theorem join {xs : List Text} (hne : xs ≠ []) (h : ∀ x ∈ xs, Term x) : Term (Text.join ", " xs) := by
  induction xs with
  | nil => exact absurd rfl hne
  | cons x xs ih =>
    obtain ⟨hx, hxs⟩ := List.forall_mem_cons.1 h
    cases xs with
    | nil => exact hx
    | cons y ys => exact hx.list (ih (by simp) hxs)

theorem parens (hx : Term x) : Term ("(" ++ x ++ ")") := by
  obtain ⟨a, rfl, ha⟩ := hx
  exact ⟨_, by simp [openParen, closeParen], ha.enclosed⟩

theorem call (hx : Term x) (hy : Term y) : Term (x ++ "(" ++ y ++ ")") := by
  obtain ⟨a, rfl, ha⟩ := hx
  obtain ⟨b, rfl, hb⟩ := hy
  exact ⟨_, by simp [openParen, closeParen], ha.append (.call hb) (.inl (ahead_symbol rfl rfl _))⟩

theorem binary (hx : Term x) (hy : Term y) (ho : o.isFlat = true) (hl : Lexed [o])
    (hk : o.kind = .operator ∨ o.kind = .conjunction) : Term (x ++ " " ++ o.text ++ " " ++ y) := by
  obtain ⟨a, rfl, ha⟩ := hx
  obtain ⟨b, rfl, hb⟩ := hy
  have hblank : o.isBlank = false := by rcases hk with hk | hk <;> simp [Token.isBlank, hk]
  have hcode : o.kind ≠ .blank ∧ o.kind ≠ .comment := by rcases hk with hk | hk <;> simp [hk]
  have hclause : o.kind ≠ .clause := by rcases hk with hk | hk <;> simp [hk]
  have hword : o.isWord = true → o.kind = .conjunction := fun hw ↦ hk.resolve_left fun hk ↦ by
    have := hl.isWord_iff.1 hw
    rw [hk] at this
    cases this
  have hlex := hl.before_space hcode (fun hw ↦ hl.conjunction_fixed (hword hw)) hb.lexed hb.head
  have hahead : ahead (space :: o :: space :: b) = [] := by
    rw [ahead_blank rfl]
    cases hw : o.isWord with
    | false => exact ahead_symbol hblank hw _
    | true => exact hlex.ahead_conjunction (hword hw)
  exact ⟨_, by simp [space], ha.append (.between hb ho ⟨hclause, hblank⟩ hlex) (.inl hahead)⟩

theorem named (hx : Term x) (hy : Term y) : Term (x ++ " AS " ++ y) := by
  obtain ⟨a, rfl, ha⟩ := hx
  obtain ⟨b, rfl, hb⟩ := hy
  have hlex := hb.lexed.as_cons hb.head
  have hw : leadingWords (nameToken "AS").text = ["as".toList] := by decide +kernel
  have hahead : ahead (space :: nameToken "AS" :: space :: b) = [] :=
    (ahead_blank rfl _).trans (hlex.ahead_head rfl hw (by decide))
  exact ⟨_, by simp [nameToken, space], ha.append (.between hb (by decide) (by decide) hlex) (.inl hahead)⟩

/-- An expression right after one that ends in a parenthesis. -/
theorem beside (hx : Term x) (hp : x.getLast? = some ')') (hy : Term y) : Term (x ++ " " ++ y) := by
  obtain ⟨a, rfl, ha⟩ := hx
  obtain ⟨b, rfl, hb⟩ := hy
  refine ⟨_, by simp [space], ha.append (.space hb) (.inr fun t ht ↦ Bool.eq_false_iff.2 fun hw ↦ ?_)⟩
  obtain ⟨us, rfl⟩ := List.getLast?_eq_some_iff.1 ht
  have hlex : Lexed [t] := ha.lexed.suffix
  have hlast : t.text.getLast? = some ')' := by
    have hne := List.getLast?_eq_some_getLast hlex.text_ne_nil
    rw [textOf_append, List.getLast?_append, textOf_cons, textOf_nil, List.append_nil, hne] at hp
    exact hne.trans hp
  have := hlex.word_chars hw ')' (List.mem_of_getLast? hlast)
  simp [Text.isNameChar, Text.isBlank] at this

end Term

end Aggregation
end QueryTemplate
