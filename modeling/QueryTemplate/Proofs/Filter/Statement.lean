import QueryTemplate.Proofs.Filter.Predicate
import QueryTemplate.Aggregation.TimeFilter
namespace QueryTemplate

open Token Grammar Formula

/-- A condition with a predicate and `AND` in front. -/
def guarded (p cond : List Token) : List Token := space :: withSpace p ++ Token.and :: cond

theorem textOf_guarded (p cond : List Token) :
    textOf (guarded p cond) = ' ' :: textOf p ++ " AND" ++ textOf cond := by
  simp [guarded, textOf_withSpace, space, Token.and]

/-- A predicate in front of a condition is a conjunct of its first disjunct. -/
theorem ofTokens_guarded {p : List Token} (hp : IsPredicate p) (cond : List Token) :
    ofTokens (guarded p cond) = (ofTokens cond).modifyHead (codeOf p :: ·) := by
  have hc : Covered (·.kind = .conjunction) 0 (space :: withSpace p) := by
    refine covered_cons.2 ⟨fun _ ↦ rfl, covered_withSpace (fun t ht ↦ ?_) hp.conjunction⟩
    have hk : t.kind = .blank := by simpa [Token.isBlank] using ht
    simp [hk]
  have hd : depthAfter 0 (space :: withSpace p) = 0 := (depthAfter_withSpace 0 p).trans hp.depth
  have hcode : codeOf (space :: withSpace p) = codeOf p := codeOf_withSpace p
  rw [guarded, ofTokens_append_and hc hd, hcode]

theorem where_words {t : Token} {ts : List Token} (h : Lexed (t :: ts)) (ht : isClause "where" t = true) :
    t.isWord = true ∧ leadingWords t.text = ["where".toList] := by
  simp only [isClause, Bool.and_eq_true, decide_eq_true_eq] at ht
  have hw := h.isWord_of_kind (by rw [ht.1]; rfl)
  refine ⟨hw, ?_⟩
  have hk : ∀ p ∈ ["with".toList] :: clausePhrases, Text.join [' '] p = "where".toList →
      p = ["where".toList] := by decide
  exact hk _ (h.clause_words ht.1) (h.keyword_eq hw ▸ ht.2)

/-- A predicate and `AND` are read as such in front of a condition. -/
theorem Lexed.guarded {w : Token} {p cond : List Token} (h : Lexed (w :: cond)) (hw : w.isWord = true)
    (hp : IsPredicate p) : Lexed (guarded p cond) := by
  have hand := h.tail.and_cons (h.stops_word hw)
  have hlex := (hp.lexed.withSpace_append hp.ne_nil hp.last hp.opener hand
    (by rintro t ⟨⟩; rfl) (phraseRest_conjunction hand rfl)).1
  exact hlex.space_cons (head_withSpace hp.ne_nil hp.head _ ▸ hp.head)

theorem commentEnd_guarded {p cond : List Token} (hp : commentEnd (textOf p) = none)
    (hc : commentEnd (textOf cond) = none) : commentEnd (textOf (guarded p cond)) = none := by
  have hand : commentEnd (" AND".toList ++ textOf cond) = none :=
    commentEnd_append rfl hc fun _ ↦ by decide
  have h : commentEnd ([' '] ++ (textOf p ++ (" AND".toList ++ textOf cond))) = none :=
    commentEnd_append rfl (commentEnd_append hp hand fun e ↦ nomatch e) fun _ ↦ by decide
  rwa [textOf_guarded, List.append_assoc, List.cons_append]

/-- A statement is read alike with a predicate, in which no comment ends, in front of its condition. -/
theorem Lexed.append_guarded {a p cond : List Token} {w : Token} (h : Lexed (a ++ w :: cond))
    (hw : isClause "where" w = true) (hp : IsPredicate p) (hc : commentEnd (textOf p) = none) :
    Lexed (a ++ w :: QueryTemplate.guarded p cond) := by
  have hb := h.suffix
  obtain ⟨hword, hl⟩ := where_words hb hw
  have hk : w.kind = .clause := by
    simp only [isClause, Bool.and_eq_true, decide_eq_true_eq] at hw
    exact hw.1
  have hg := hb.guarded hword hp
  have hwg : Lexed (w :: QueryTemplate.guarded p cond) :=
    hb.fixed_exchange hword (by rw [hl]; decide) hg (stops_space _)
  -- A slash that opens no comment before the old condition opens none before the new one.
  have hend : ∀ x, commentEnd (x ++ textOf cond) = none →
      commentEnd (x ++ textOf (QueryTemplate.guarded p cond)) = none := fun x hx ↦
    commentEnd_append_none (commentEnd_guarded hc) (fun e ↦ nomatch e) hx
  refine (h.append_exchange hwg (.of_clause hb hk) (h.slashFree.append hwg.slashFree ?_ ?_ ?_)).1
  · rw [textOf_cons, textOf_cons, hb.head_append, hb.head_append]
  · exact hend _
  · obtain ⟨c, x, e⟩ := List.exists_cons_of_ne_nil hb.text_ne_nil
    rw [textOf_cons, textOf_cons, e]
    exact hend x

theorem lead_guarded {p : List Token} (hp : IsPredicate p) (hc : Covered (·.kind = .clause) 0 p)
    (cond : List Token) : (sections (·.kind = .clause) 0 (guarded p cond)).lead =
      guarded p (sections (·.kind = .clause) 0 cond).lead := by
  have hcov : Covered (·.kind = .clause) 0 (space :: withSpace p ++ [Token.and]) := by
    refine covered_cons.2 ⟨fun _ ↦ rfl, covered_append.2 ⟨covered_withSpace (fun t ht ↦ ?_) hc, ?_⟩⟩
    · have hk : t.kind = .blank := by simpa [Token.isBlank] using ht
      simp [hk]
    · exact covered_cons.2 ⟨fun _ ↦ rfl, covered_nil⟩
  have hd : depthAfter 0 (space :: withSpace p ++ [Token.and]) = 0 := by
    rw [depthAfter_append, show depthAfter 0 (space :: withSpace p) = 0 from
      (depthAfter_withSpace 0 p).trans hp.depth]
    rfl
  have e : ∀ c, guarded p c = (space :: withSpace p ++ [Token.and]) ++ c := fun c ↦ by simp [guarded]
  rw [e, e, sections_append hcov, hd]

/-- The condition that is read after a filter was put in front of it. -/
theorem ofStatement?_filterStatement {s filter : Text} {p : List Token} {f : Formula}
    (hs : ofStatement? s = some f) (hf : tokens? filter = .ok p) (hp : IsPredicate p)
    (hc : Covered (·.kind = .clause) 0 p) (hend : commentEnd filter = none) :
    ∃ s', filterStatement s filter = .ok s' ∧ ofStatement? s' = some (f.modifyHead (codeOf p :: ·)) := by
  simp only [ofStatement?] at hs
  split at hs
  · rename_i ts e
    obtain ⟨cond, hw, rfl⟩ := Option.map_eq_some_iff.1 hs
    obtain ⟨⟨before, w, rest⟩, hcut, rfl⟩ := Option.map_eq_some_iff.1 hw
    obtain ⟨rfl, hts⟩ := tokens?_eq_ok_iff.1 e
    obtain ⟨rfl, -⟩ := tokens?_eq_ok_iff.1 hf
    obtain ⟨rfl, h₁, h₂, h₃⟩ := cutOutside_eq_some_iff.1 hcut
    refine ⟨textOf (before ++ w :: guarded p rest), ?_, ?_⟩
    · rw [filterStatement, e, Except.map, filterTokens, hcut]
      simp [textOf_guarded]
    · have hcut' : cutOutside (isClause "where") (before ++ w :: guarded p rest) =
          some (before, w, guarded p rest) := cutOutside_eq_some_iff.2 ⟨rfl, h₁, h₂, h₃⟩
      rw [ofStatement?, tokens?_eq_ok_iff.2 ⟨rfl, hts.append_guarded h₃ hp hend⟩]
      simp only [whereTokens?, hcut', Option.map_some, lead_guarded hp hc]
      rw [ofTokens_guarded hp]
  · cases hs

/-- The filter restricts the whole condition of a statement exactly if every disjunct after the first
has it as a conjunct already. -/
theorem filterStatement_restricts_iff {s filter : Text} {p : List Token} {f : Formula}
    (hs : ofStatement? s = some f) (hf : tokens? filter = .ok p) (hp : IsPredicate p)
    (hc : Covered (·.kind = .clause) 0 p) (hend : commentEnd filter = none) :
    ∃ s' f', filterStatement s filter = .ok s' ∧ ofStatement? s' = some f' ∧
      ((∀ v, f'.holds v = (v (codeOf p) && f.holds v)) ↔ ∀ d ∈ f.tail, codeOf p ∈ d) := by
  obtain ⟨s', h₁, h₂⟩ := ofStatement?_filterStatement hs hf hp hc hend
  refine ⟨s', _, h₁, h₂, ?_⟩
  obtain ⟨d, ds, rfl⟩ : ∃ d ds, f = d :: ds := by
    refine List.exists_cons_of_ne_nil fun e ↦ ?_
    simp only [ofStatement?] at hs
    split at hs
    · obtain ⟨cond, -, h⟩ := Option.map_eq_some_iff.1 hs
      exact ofTokens_ne_nil _ (h.trans e)
    · cases hs
  rw [List.modifyHead_cons, List.tail_cons]
  exact holds_cons_head _ _ _

theorem filterStatement_misses_second_disjunct :
    ∃ s' f', filterStatement "FROM t WHERE a=1 OR b=2" "$timeFilter" = .ok s' ∧ ofStatement? s' = some f' ∧
      ¬ ∀ v, f'.holds v = (v [⟨.placeholder, "$timeFilter"⟩] &&
        holds v [[[⟨.identifier, "a"⟩, ⟨.operator, "="⟩, ⟨.number, "1"⟩]],
          [[⟨.identifier, "b"⟩, ⟨.operator, "="⟩, ⟨.number, "2"⟩]]]) := by
  have hs : tokens? "FROM t WHERE a=1 OR b=2" = .ok [⟨.clause, "FROM"⟩, space, ⟨.identifier, "t"⟩, space,
      ⟨.clause, "WHERE"⟩, space, ⟨.identifier, "a"⟩, ⟨.operator, "="⟩, ⟨.number, "1"⟩, space,
      ⟨.conjunction, "OR"⟩, space, ⟨.identifier, "b"⟩, ⟨.operator, "="⟩, ⟨.number, "2"⟩] :=
    tokens?_eq_ok_iff.2 ⟨by decide, by decide⟩
  have hf : tokens? "$timeFilter" = .ok [⟨.placeholder, "$timeFilter"⟩] :=
    tokens?_eq_ok_iff.2 ⟨by decide, by decide⟩
  obtain ⟨s', f', h₁, h₂, h₃⟩ := filterStatement_restricts_iff (by rw [ofStatement?, hs]; rfl) hf (by decide)
    (by decide) (by decide)
  exact ⟨s', f', h₁, h₂, fun h ↦ absurd (h₃.1 h) (by decide)⟩

end QueryTemplate
