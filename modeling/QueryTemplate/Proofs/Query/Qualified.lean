import QueryTemplate.Proofs.Query.Step
import QueryTemplate.Proofs.Token.Alone
import QueryTemplate.Proofs.Token.Splice
namespace QueryTemplate

open Token Grammar

variable {x y : Token}

/-- Whether a token can be a name: a bare or a quoted one. -/
def Token.isName (t : Token) : Bool := t.kind = .identifier || t.kind = .string

/-- What follows a clause keyword or a number after a space takes nothing of it. -/
theorem Lexed.before_space {t : Token} {ps : List Token} (ht : Lexed [t])
    (hk : t.kind ≠ .blank ∧ t.kind ≠ .comment)
    (hw : t.isWord = true → leadingWords t.text ∈ fixedPhrases) (hp : Lexed ps)
    (hb : ∀ t ∈ ps.head?, t.isBlank = false) : Lexed (t :: space :: ps) := by
  have hs : Sealed (textOf (space :: ps)) := sealed_blank rfl _
  refine ht.before (hp.space_cons hb) ⟨fun e ↦ absurd e hk.1, fun e ↦ ?_,
    fun e ↦ ⟨stops_name_of_delimited hs.1, .inl (hw e)⟩, fun _ ↦ .inl hs.stops_numeric,
    fun _ _ _ _ ↦ .inr (.inr hs.1)⟩
  simp [isLineComment, hk.2] at e

theorem kind_of_isName (h : x.isName = true) : x.kind = .identifier ∨ x.kind = .string := by
  simpa [isName] using h

theorem head_of_isName (h : Lexed [x]) (hn : x.isName = true) :
    ∀ c ∈ x.text.head?, startsWord c = true ∨ c = '\'' ∨ c = '`' ∨ c = '"' := by
  intro c hc
  have hk := Lexical.startsKind ⟨[], h⟩ c hc
  rcases kind_of_isName hn with hn | hn
  · rw [hn] at hk
    exact .inl hk
  · rw [hn] at hk
    exact .inr (by simpa [startsKind, or_assoc] using hk)

/-- The tokens of a query that reads from the table `y` of the database `x`. -/
def qualified (x y : Token) : List Token :=
  [⟨.clause, "SELECT"⟩, space, ⟨.number, "1"⟩, space, ⟨.clause, "FROM"⟩, space, x,
    ⟨.operator, ['.']⟩, y]

theorem lexed_qualified (hx : Lexed [x]) (hy : Lexed [y]) (nx : x.isName = true)
    (ny : y.isName = true) : Lexed (qualified x y) := by
  have hpoint : Lexed [⟨.operator, ['.']⟩, y] := by
    refine lexed_cons.2 ⟨munch_point fun c hc ↦ ?_, hy⟩
    have hc' : c ∈ y.text.head? := by simpa using hc
    rcases head_of_isName hy ny c hc' with h | rfl | rfl | rfl
    · exact Bool.eq_false_iff.2 fun hd ↦ by simp [not_startsWord_of_isDigit hd] at h
    all_goals rfl
  have hdelim : Delimited (textOf [⟨.operator, ['.']⟩, y]) := by
    rintro c ⟨⟩
    rfl
  have hname : Lexed [x, ⟨.operator, ['.']⟩, y] := by
    refine hx.before hpoint ⟨fun e ↦ ?_, fun e ↦ ?_,
      fun _ ↦ ⟨stops_name_of_delimited hdelim, .inr rfl⟩, fun e ↦ ?_,
      fun _ _ _ _ ↦ .inr (.inr hdelim)⟩
    · rcases kind_of_isName nx with h | h <;> rw [h] at e <;> cases e
    · rcases kind_of_isName nx with h | h <;> simp [isLineComment, h] at e
    · rcases kind_of_isName nx with h | h <;> rw [h] at e <;> cases e
  have hblank : x.isBlank = false := by
    rcases kind_of_isName nx with h | h <;> simp [Token.isBlank, h]
  have hword : ∀ {w : Text}, (∀ c ∈ w, Text.isNameChar c = true) →
      leadingWords w = [Text.lower w] := fun {w} hw ↦ by
    have := leadingWords_append_of_name hw (Text.stops_nil _)
    rwa [List.append_nil] at this
  have hfrom : Lexed [⟨.clause, "FROM"⟩, space, x, ⟨.operator, ['.']⟩, y] := by
    refine Lexed.before_space (by decide +kernel) (by decide) (fun _ ↦ ?_) hname (by simpa)
    rw [hword (by decide)]
    decide
  have hone := Lexed.before_space (t := ⟨.number, "1"⟩) (by decide +kernel) (by decide)
    (fun h ↦ by cases h) hfrom (by simp [Token.isBlank])
  refine Lexed.before_space (by decide +kernel) (by decide) (fun _ ↦ ?_) hone
    (by simp [Token.isBlank])
  rw [hword (by decide)]
  decide

theorem parse_qualified (hx : Lexed [x]) (hy : Lexed [y]) (nx : x.isName = true)
    (ny : y.isName = true) (ha : ∀ c ∈ x.text.getLast?, Fragment.attaches c = true) :
    parse ("SELECT 1 FROM " ++ (x.text ++ '.' :: y.text)) =
      .ok { slots := { select := some ["1"] },
            source := some (.table [x.text ++ '.' :: y.text]) } := by
  have htext : "SELECT 1 FROM " ++ (x.text ++ '.' :: y.text) = textOf (qualified x y) := by
    simp [qualified, space]
  have hpush : ∀ {t : Token} (d : Draft) (ts : List Token), t.isName = true →
      d.step [] t ts = .ok (d.pushToken t, ts) := by
    intro t d ts ht
    rcases kind_of_isName ht with ht | ht <;> simp [Draft.step, Draft.action, ht]
  have hnest : ∀ {t : Token} (f : Fragment), t.isName = true →
      f.pushToken t = ⟨f.text ++ (if Fragment.needsSpace f.text t then [' '] else []) ++ t.text,
        f.depth, true, false⟩ := by
    intro t f ht
    rcases kind_of_isName ht with ht | ht <;>
      simp [Fragment.pushToken, isOpenParen, isCloseParen, ht]
  have hsolid : ∀ {t : Token}, Lexed [t] → t.isName = true → Solid t.text := by
    intro t ht hn
    rcases kind_of_isName hn with h | h <;>
      exact Lexical.solid ⟨[], ht⟩ (by simp [h]) (by simp [h])
  have hdot : Fragment.needsSpace x.text ⟨.operator, ['.']⟩ = false := by
    rw [Fragment.needsSpace, List.getLast?_eq_some_getLast hx.text_ne_nil]
    simp [ha _ (List.getLast?_eq_some_getLast hx.text_ne_nil)]
  have hfrag : ((Fragment.pushToken x {}).pushToken ⟨.operator, ['.']⟩).pushToken y =
      ⟨x.text ++ '.' :: y.text, 0, true, false⟩ := by
    have hfirst : Fragment.needsSpace [] x = false := rfl
    have hlast : Fragment.needsSpace (x.text ++ ['.']) y = false := by simp [Fragment.needsSpace]
    rw [hnest _ nx, hnest _ ny]
    simp [Fragment.pushToken, hfirst, hdot, hlast, isOpenParen, isCloseParen]
  rw [htext, parse_textOf (lexed_qualified hx hy nx ny)]
  refine (parseTokens_step rfl).trans ?_
  refine (parseTokens_step rfl).trans ?_
  refine (parseTokens_step rfl).trans ?_
  refine (parseTokens_step rfl).trans ?_
  refine (parseTokens_step rfl).trans ?_
  refine (parseTokens_step rfl).trans ?_
  refine (parseTokens_step (hpush _ _ nx)).trans ?_
  refine (parseTokens_step rfl).trans ?_
  refine (parseTokens_step (hpush _ _ ny)).trans ?_
  rw [parseTokens_nil]
  have hd : Draft.pushToken y (Draft.pushToken ⟨.operator, ['.']⟩ (Draft.pushToken x
      (Draft.openClause .source (Draft.pushToken ⟨.number, "1"⟩
        (Draft.openClause (.slot .select) {}))))) =
      ⟨{ slots := { select := some ["1"] }, source := some (.table []) }, .source,
        ((Fragment.pushToken x {}).pushToken ⟨.operator, ['.']⟩).pushToken y⟩ := rfl
  have htrim : Text.trim (x.text ++ '.' :: y.text) = x.text ++ '.' :: y.text :=
    ((hsolid hx nx).append (.append (s := ['.']) ⟨by simp; rfl, by simp; rfl⟩ (hsolid hy ny))).trim
  rw [hd, hfrag]
  simp [Draft.flush, Fragment.take?, htrim, Draft.push, Query.push?, Query.modify?, atEnd]

end QueryTemplate
