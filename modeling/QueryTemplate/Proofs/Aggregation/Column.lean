import QueryTemplate.Proofs.Aggregation.Term
import QueryTemplate.Proofs.Token.Name
namespace QueryTemplate

open Token Grammar

variable {ts : List Token} {t : Token}

namespace Aggregation

/-- The token of an alias. -/
structure IsAlias (t : Token) : Prop where
  name : t.isName = true
  lexed : Lexed [t]

namespace IsAlias

theorem flat (h : IsAlias t) : t.isFlat = true := by
  rcases kind_of_isName h.name with hk | hk <;> simp [isFlat, isOrdinary, isUnionAll, isClause, hk]

theorem kind (h : IsAlias t) : t.kind ≠ .clause ∧ t.kind ≠ .blank := by
  rcases kind_of_isName h.name with hk | hk <;> simp [hk]

theorem ne_slash (h : IsAlias t) : t.text ≠ ['/'] := by
  intro e
  rcases head_of_isName h.lexed h.name '/' (by rw [e]; rfl) with h | h | h | h <;> revert h <;> decide

theorem term (h : IsAlias t) : IsTerm [t] := .token h.lexed h.flat h.kind h.ne_slash

theorem text (h : IsAlias t) : Term t.text := ⟨[t], by simp, h.term⟩

/-- What is no quote and goes on with no word may stand right behind a name. -/
theorem lexed_cons (h : IsAlias t) (hl : Lexed ts) (hq : Unquoted (textOf ts)) (hs : Text.Stops Text.isNameChar (textOf ts))
    (ha : ahead ts = []) : Lexed (t :: ts) := by
  rcases kind_of_isName h.name with hk | hk
  · have hw : t.isWord = true := h.lexed.isWord_iff.2 (by rw [hk]; rfl)
    exact h.lexed.exchange hl ⟨fun _ ↦ ⟨hs, .inr ha.symm⟩, fun e ↦ by simp [hk] at e, fun e ↦ by simp [hw] at e⟩
      ⟨fun e ↦ absurd e h.ne_slash, hl.slashFree⟩
  · obtain ⟨k, u⟩ := t
    obtain rfl : k = .string := hk
    exact QueryTemplate.lexed_cons.2 ⟨munch_string_congr (lexed_singleton.1 h.lexed) (.inr hq), hl⟩

end IsAlias

/-- A word that is a name by itself. -/
def IsBareName (w : Text) : Prop :=
  w.head?.any startsWord = true ∧ (∀ c ∈ w, Text.isNameChar c = true) ∧ Text.lower w ∉ keywords

instance (w : Text) : Decidable (IsBareName w) := inferInstanceAs (Decidable (_ ∧ _))

theorem IsBareName.alias {w : Text} (h : IsBareName w) : IsAlias (nameToken w) := ⟨rfl, (lexed_identifier_iff h.1 h.2.1).2 h.2.2⟩

theorem IsBareName.term {w : Text} (h : IsBareName w) : Term w := h.alias.text

/-- A word that makes another name of every name that it is put behind. -/
structure IsSuffix (w : Text) : Prop where
  head : w.head?.any startsWord = true
  chars : ∀ c ∈ w, Text.isNameChar c = true
  name : ∀ k ∈ keywords, ¬Text.lower w <:+ k

instance (w : Text) : Decidable (IsSuffix w) :=
  decidable_of_iff (w.head?.any startsWord = true ∧ (∀ c ∈ w, Text.isNameChar c = true) ∧ ∀ k ∈ keywords, ¬Text.lower w <:+ k)
    ⟨fun h ↦ ⟨h.1, h.2.1, h.2.2⟩, fun h ↦ ⟨h.1, h.2, h.3⟩⟩

theorem IsSuffix.alias {w : Text} (h : IsSuffix w) : IsAlias (nameToken w) :=
  IsBareName.alias ⟨h.head, h.chars, fun hk ↦ h.name _ hk List.suffix_rfl⟩

theorem IsAlias.suffixed {w : Text} (h : IsAlias t) (hw : IsSuffix w) : Term (t.text ++ w) := by
  have hb := hw.alias
  rcases kind_of_isName h.name with hk | hk
  · have hc : ∀ c ∈ t.text ++ w, Text.isNameChar c = true :=
      List.forall_mem_append.2 ⟨h.lexed.forall_isNameChar hk, hw.chars⟩
    have hs : (t.text ++ w).head?.any startsWord = true := by
      have ht : t.isWord = true := h.lexed.isWord_iff.2 (by rw [hk]; rfl)
      rwa [List.head?_append_of_ne_nil _ h.lexed.text_ne_nil]
    have hn : Text.lower (t.text ++ w) ∉ keywords := fun hm ↦ hw.name _ hm (by
      rw [Text.lower_append]
      exact List.suffix_append _ _)
    exact IsBareName.term ⟨hs, hc, hn⟩
  · obtain ⟨k, u⟩ := t
    obtain rfl : k = .string := hk
    have hq : Unquoted (textOf [nameToken w]) := by
      intro c hc
      have hc : c ∈ w.head? := by simpa [nameToken] using hc
      have := hw.head
      rw [Option.mem_def.1 hc] at this
      refine ⟨?_, ?_, ?_⟩ <;> rintro rfl <;> revert this <;> decide
    have hl : Lexed [⟨.string, u⟩, nameToken w] :=
      QueryTemplate.lexed_cons.2 ⟨munch_string_congr (lexed_singleton.1 h.lexed) (.inr hq), hb.lexed⟩
    exact ⟨_, by simp [nameToken], hb.term.cons h.flat h.kind.1 (.inl h.ne_slash) hl, by simp [Token.isBlank]⟩

/-- The column with the greatest value of the argument with the number `n`. -/
theorem isAlias_numbered (n : Nat) : IsAlias (nameToken ("max_" ++ Text.ofNat n)) := by
  have hc : ∀ c ∈ ("max_" ++ Text.ofNat n : Text), Text.isNameChar c = true := by
    refine List.forall_mem_append.2 ⟨by decide, fun c hc ↦ ?_⟩
    have hd : c.isDigit = true := Nat.isDigit_of_mem_toDigits (by decide) (by decide) hc
    simp [Text.isNameChar, Char.isAlphanum, hd]
  have hn : Text.lower ("max_" ++ Text.ofNat n) ∉ keywords := by
    rw [Text.lower_append]
    have hall : ∀ k ∈ keywords, k.take 4 ≠ "max_" := by decide
    exact fun h ↦ hall _ h (by simp [Text.lower])
  exact IsBareName.alias ⟨by simp; decide, hc, hn⟩

section

variable {r : Text} {k column : Token}

theorem term_t : Term "t" := IsBareName.term (by decide)

theorem term_nan : Term "nan" := IsBareName.term (by decide)

theorem term_zero : Term "0" := ⟨[⟨.number, "0"⟩], by simp, by decide⟩

theorem term_one : Term "1" := ⟨[⟨.number, "1"⟩], by simp, by decide⟩

/-- A call of `if`. -/
theorem Term.choice {x y : Text} (hr : Term r) (hx : Term x) (hy : Term y) :
    Term ("if(" ++ r ++ ", " ++ x ++ ", " ++ y ++ ")") := by
  have hname : Term "if" := IsBareName.term (by decide)
  simpa using hname.call (hr.list (hx.list hy))

theorem Term.or {x : Text} (hx : Term x) (hr : Term r) : Term (x ++ " OR " ++ r) := by
  simpa using hx.binary (o := ⟨.conjunction, "OR"⟩) hr rfl (by decide) (.inr rfl)

/-- A column in the row before. -/
theorem IsAlias.term_lag (h : IsAlias column) :
    Term ("lagInFrame(" ++ column.text ++ ", 1, " ++ column.text ++ ") OVER ()") := by
  have hname : Term "lagInFrame" := IsBareName.term (by decide)
  have hover : Term "OVER ()" := ⟨[nameToken "OVER", space, openParen, closeParen], by
    simp [nameToken, space, openParen, closeParen], by decide⟩
  simpa using (hname.call (h.text.list (term_one.list h.text))).beside List.getLast?_concat hover

namespace Mode

theorem term_difference (m : Mode) (h : IsAlias column) : Term (m.difference column.text) := by
  cases m with
  | running =>
    have hname : Term "runningDifference" := IsBareName.term (by decide)
    have := hname.call h.text
    show Term ("runningDifference(" ++ column.text ++ ")")
    simpa using this
  | window =>
    have := (h.text.binary (o := ⟨.operator, "-"⟩) h.term_lag rfl (by decide) (.inl rfl)).parens
    show Term ("(" ++ column.text ++ " - lagInFrame(" ++ column.text ++ ", 1, " ++ column.text ++ ") OVER ())")
    simpa using this

theorem term_changed (m : Mode) (h : IsAlias k) : Term (m.changed k.text) := by
  cases m with
  | running =>
    have hname : Term "neighbor" := IsBareName.term (by decide)
    have hminus : Term "-1" := ⟨[⟨.operator, "-"⟩, ⟨.number, "1"⟩], by simp, by decide⟩
    have := (hname.call (h.text.list (hminus.list h.text))).binary (o := ⟨.operator, "!="⟩) h.text rfl (by decide) (.inl rfl)
    show Term ("neighbor(" ++ k.text ++ ", -1, " ++ k.text ++ ") != " ++ k.text)
    simpa using this
  | window =>
    have := h.term_lag.binary (o := ⟨.operator, "!="⟩) h.text rfl (by decide) (.inl rfl)
    show Term ("lagInFrame(" ++ k.text ++ ", 1, " ++ k.text ++ ") OVER () != " ++ k.text)
    simpa using this

/-- The tokens of the length of a time bucket. -/
def elapsedTokens : Mode → List Token
  | running => [nameToken "runningDifference", openParen, nameToken "t", ⟨.operator, "/"⟩, ⟨.number, "1000"⟩, closeParen]
  | window => [openParen, openParen, nameToken "t", space, ⟨.operator, "-"⟩, space, nameToken "lagInFrame", openParen,
      nameToken "t", comma, space, ⟨.number, "1"⟩, comma, space, nameToken "t", closeParen, space, nameToken "OVER", space,
      openParen, closeParen, closeParen, space, ⟨.operator, "/"⟩, space, ⟨.number, "1000"⟩, closeParen]

theorem textOf_elapsedTokens (m : Mode) : textOf m.elapsedTokens = m.elapsed := by cases m <;> rfl

theorem term_elapsed (m : Mode) : Term m.elapsed :=
  ⟨m.elapsedTokens, m.textOf_elapsedTokens, by cases m <;> decide +kernel⟩

/-- A column divided by the length of its time bucket. -/
theorem term_divided (m : Mode) (h : IsAlias column) : Term (column.text ++ "/" ++ m.elapsed) := by
  have hp : IsPiece (⟨.operator, "/"⟩ :: m.elapsedTokens) := by cases m <;> decide +kernel
  have hc : Lexed (column :: ⟨.operator, "/"⟩ :: m.elapsedTokens) :=
    h.lexed_cons hp.lexed (fun c e ↦ Option.some.inj e ▸ by decide) (fun c e ↦ Option.some.inj e ▸ by decide)
      (ahead_symbol rfl rfl _)
  refine ⟨_, ?_, hp.cons h.flat h.kind.1 (.inl h.ne_slash) hc, by simpa [Token.isBlank] using h.kind.2⟩
  simp [textOf_elapsedTokens]

/-- Whether a counter was set back. -/
theorem term_negative (m : Mode) (h : IsAlias column) : Term (m.difference column.text ++ " < 0") := by
  simpa using (m.term_difference h).binary (o := ⟨.operator, "<"⟩) term_zero rfl (by decide) (.inl rfl)

theorem term_counter (m : Mode) (c : Change) (h : IsAlias column) {reset : Option Text} (hr : ∀ r ∈ reset, Term r) :
    Term (m.counter column.text c reset) := by
  have hd := m.term_difference h
  have hn := m.term_negative h
  have hq : Term (m.difference column.text ++ " / " ++ m.elapsed) := by
    simpa using hd.binary (o := ⟨.operator, "/"⟩) m.term_elapsed rfl (by decide) (.inl rfl)
  cases reset with
  | none =>
    cases c with
    | rate => exact m.term_divided h
    | perSecond =>
      show Term ("if(" ++ m.difference column.text ++ " < 0" ++ ([] : Text) ++ ", nan, " ++ m.difference column.text ++ " / " ++
        m.elapsed ++ ")")
      simpa using hn.choice term_nan hq
    | increase =>
      show Term ("if(" ++ m.difference column.text ++ " < 0" ++ ([] : Text) ++ ", 0, " ++ m.difference column.text ++ ")")
      simpa using hn.choice term_zero hd
    | delta => exact hd
  | some r =>
    have hr : Term r := hr r rfl
    cases c with
    | rate =>
      show Term ("if(" ++ r ++ ", nan, " ++ column.text ++ "/" ++ m.elapsed ++ ")")
      simpa using hr.choice term_nan (m.term_divided h)
    | perSecond =>
      show Term ("if(" ++ m.difference column.text ++ " < 0" ++ (" OR " ++ r) ++ ", nan, " ++
        m.difference column.text ++ " / " ++ m.elapsed ++ ")")
      simpa using (hn.or hr).choice term_nan hq
    | increase =>
      show Term ("if(" ++ m.difference column.text ++ " < 0" ++ (" OR " ++ r) ++ ", 0, " ++ m.difference column.text ++ ")")
      simpa using (hn.or hr).choice term_zero hd
    | delta =>
      show Term ("if(" ++ r ++ ", 0, " ++ m.difference column.text ++ ")")
      simpa using hr.choice term_zero hd

end Mode

end

end Aggregation
end QueryTemplate
