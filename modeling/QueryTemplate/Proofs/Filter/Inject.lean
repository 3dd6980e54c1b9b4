import QueryTemplate.Proofs.Filter.Predicate
namespace QueryTemplate

open Token Grammar Formula

/-- The tokens of several texts with spaces between them. -/
def joined : List (List Token) → List Token
  | [] => []
  | [p] => p
  | p :: q :: ps => withSpace p ++ joined (q :: ps)

theorem textOf_joined (ps : List (List Token)) : textOf (joined ps) = Text.join " " (ps.map textOf) := by
  fun_induction joined ps with
  | case1 => rfl
  | case2 => rfl
  | case3 p q ps ih =>
    rw [textOf_append, textOf_withSpace, ih]
    rfl

/-- Predicates, each but the first of which carries its own `AND` or `OR`. -/
def IsChain : List (List Token) → Prop
  | [] => True
  | p :: ps => IsPredicate p ∧ ∀ q ∈ ps, IsLinked q

/-- Pieces, each but the first of which starts with a conjunction, are read in a row. -/
theorem lexed_joined {p : List Token} {ps : List (List Token)} (hp : IsPiece p)
    (hps : ∀ q ∈ ps, IsLinked q) : Lexed (joined (p :: ps)) ∧ (joined (p :: ps)).head? = p.head? := by
  induction ps generalizing p with
  | nil => exact ⟨hp.lexed, rfl⟩
  | cons q ps ih =>
    have hq := hps q List.mem_cons_self
    obtain ⟨h₁, h₂⟩ := ih hq.toIsPiece fun r hr ↦ hps r (List.mem_cons_of_mem _ hr)
    obtain ⟨t, us, rfl, hk, -⟩ := hq.first
    obtain ⟨us', he⟩ := List.head?_eq_some_iff.1 h₂
    have hw : phraseRest (tokenWords (joined ((t :: us) :: ps))) = [] := by
      rw [he] at h₁ ⊢
      exact phraseRest_conjunction h₁ hk
    exact ⟨(hp.lexed.withSpace_append hp.ne_nil hp.last hp.opener h₁ (h₂ ▸ hq.head) hw).1,
      head_withSpace hp.ne_nil hp.head _⟩

theorem depthAfter_joined {ps : List (List Token)} (h : ∀ p ∈ ps, IsPiece p) : depthAfter 0 (joined ps) = 0 := by
  fun_induction joined ps with
  | case1 => rfl
  | case2 p => exact (h p List.mem_cons_self).depth
  | case3 p q ps ih =>
    rw [depthAfter_append, depthAfter_withSpace, (h p List.mem_cons_self).depth]
    exact ih fun r hr ↦ h r (List.mem_cons_of_mem _ hr)

theorem joined_append {ps : List (List Token)} (hne : ps ≠ []) (h : ∀ p ∈ ps, p ≠ []) (q : List Token) :
    joined (ps ++ [q]) = withSpace (joined ps) ++ q ∧ joined ps ≠ [] := by
  fun_induction joined ps with
  | case1 => exact absurd rfl hne
  | case2 p => exact ⟨rfl, h p List.mem_cons_self⟩
  | case3 p r ps ih =>
    obtain ⟨h₁, h₂⟩ := ih (by simp) fun r hr ↦ h r (List.mem_cons_of_mem _ hr)
    refine ⟨?_, by simp [h₂]⟩
    rw [withSpace_append _ h₂, List.append_assoc, ← h₁]
    rfl

theorem IsChain.isPiece {ps : List (List Token)} (h : IsChain ps) : ∀ p ∈ ps, IsPiece p := by
  cases ps with
  | nil => simp
  | cons p ps =>
    intro q hq
    rcases List.mem_cons.1 hq with rfl | hq
    · exact h.1.toIsPiece
    · exact (h.2 q hq).toIsPiece

/-- A predicate after `AND`. -/
theorem IsPredicate.isLinked {c : List Token} (h : IsPredicate c) : IsLinked (Token.and :: space :: c) where
  lexed := (h.lexed.space_cons h.head).and_cons (stops_space _)
  ne_nil := by simp
  head := by
    rintro t ⟨⟩
    rfl
  last t ht := by
    obtain ⟨u, c, rfl⟩ := List.exists_cons_of_ne_nil h.ne_nil
    exact h.last t (by simpa using ht)
  opener := by
    have := h.opener
    simp [opensComment, Token.and, space, this]
  depth := h.depth
  first := ⟨_, _, rfl, rfl, covered_cons.2 ⟨fun _ ↦ rfl, h.conjunction⟩⟩

/-- What `conjoin` makes of a condition, as tokens. -/
def linkTo (ps : List (List Token)) (c : List Token) : List (List Token) :=
  ps ++ [if ps = [] then c else Token.and :: space :: c]

theorem conjoin_textOf (ps cs : List (List Token)) :
    Filter.conjoin (ps.map textOf) (cs.map textOf) = (cs.foldl linkTo ps).map textOf := by
  induction cs generalizing ps with
  | nil => rfl
  | cons c cs ih =>
    rw [List.foldl_cons, ← ih]
    have e : (linkTo ps c).map textOf =
        ps.map textOf ++ [(if ps.map textOf = [] then textOf c else "AND " ++ textOf c : Text)] := by
      by_cases hp : ps = [] <;> simp [linkTo, hp, Token.and, space]
    rw [e]
    rfl

theorem IsChain.linkTo {ps : List (List Token)} (h : IsChain ps) {c : List Token} (hc : IsPredicate c) :
    IsChain (linkTo ps c) := by
  cases ps with
  | nil => exact ⟨hc, by simp⟩
  | cons p ps =>
    refine ⟨h.1, fun q hq ↦ ?_⟩
    rcases List.mem_append.1 hq with hq | hq
    · exact h.2 q hq
    · obtain rfl := List.mem_singleton.1 hq
      exact hc.isLinked

/-- The condition that a list of predicates stands for; it is true without any. -/
def ofChain (ps : List (List Token)) : Formula := if ps = [] then [[]] else ofTokens (joined ps)

theorem ofItems?_textOf {ps : List (List Token)} (h : IsChain ps) : ofItems? (ps.map textOf) = some (ofChain ps) := by
  cases ps with
  | nil => rfl
  | cons p ps =>
    have hl := (lexed_joined h.1.toIsPiece h.2).1
    rw [ofItems?, if_neg (by simp), tokens?_eq_ok_iff.2 ⟨textOf_joined (p :: ps), hl⟩]
    rfl

theorem ofTokens_withSpace (ts : List Token) : ofTokens (withSpace ts) = ofTokens ts := by
  rw [← ofTokens_codeOf, codeOf_withSpace, ofTokens_codeOf]

theorem ofChain_linkTo {ps : List (List Token)} (h : IsChain ps) {c : List Token} (hc : IsPredicate c) :
    ∃ ds d, ofChain ps = ds ++ [d] ∧ ofChain (linkTo ps c) = ds ++ [d ++ [codeOf c]] := by
  cases ps with
  | nil => exact ⟨[], [], rfl, ofTokens_of_covered hc.conjunction⟩
  | cons p ps =>
    have hd : depthAfter 0 (withSpace (joined (p :: ps))) = 0 := by
      rw [depthAfter_withSpace, depthAfter_joined h.isPiece]
    have hcov : Covered (·.kind = .conjunction) 0 (space :: c) := covered_cons.2 ⟨fun _ ↦ rfl, hc.conjunction⟩
    obtain ⟨ds, d, h₁, h₂⟩ := ofTokens_append_last hd hcov
    rw [ofTokens_withSpace] at h₁
    refine ⟨ds, d, h₁, ?_⟩
    rw [ofChain, if_neg (by simp [linkTo]), linkTo, if_neg (by simp),
      (joined_append (by simp) (fun q hq ↦ (h.isPiece q hq).ne_nil) _).1]
    exact h₂

theorem ofChain_foldl {cs ps : List (List Token)} (h : IsChain ps) (hc : ∀ c ∈ cs, IsPredicate c) :
    IsChain (cs.foldl linkTo ps) ∧
      ∃ ds d, ofChain ps = ds ++ [d] ∧ ofChain (cs.foldl linkTo ps) = ds ++ [d ++ cs.map codeOf] := by
  induction cs generalizing ps with
  | nil =>
    have hne : ofChain ps ≠ [] := by
      rw [ofChain]
      split
      · exact List.cons_ne_nil _ _
      · exact ofTokens_ne_nil _
    have e := (List.dropLast_concat_getLast hne).symm
    exact ⟨h, _, _, e, by rw [List.map_nil, List.append_nil]; exact e⟩
  | cons c cs ih =>
    obtain ⟨h₁, ds, d, h₂, h₃⟩ := ih (h.linkTo (hc c List.mem_cons_self)) fun b hb ↦
      hc b (List.mem_cons_of_mem _ hb)
    obtain ⟨es, e, g₁, g₂⟩ := ofChain_linkTo h (hc c List.mem_cons_self)
    rw [g₂] at h₂
    obtain ⟨rfl, he⟩ := List.append_inj' h₂ rfl
    obtain rfl := (List.cons.inj he).1
    exact ⟨h₁, es, e, g₁, by rw [List.foldl_cons, h₃]; simp⟩

namespace Query

variable {q : Query} {f : Query → Query}

theorem source_ne_subquery
    (h : ∀ root calls slots x joins unions, q ≠ ⟨root, calls, slots, some (.subquery x), joins, unions⟩)
    (x : Query) : q.source ≠ some (.subquery x) := by
  intro hx
  obtain ⟨root, calls, slots, _, joins, unions⟩ := q
  obtain rfl : _ = some _ := hx
  exact h root calls slots x joins unions rfl

theorem innermost_eq_self (h : ∀ x, q.source ≠ some (.subquery x)) : q.innermost = q := by
  rw [innermost]
  rintro root calls slots x joins unions rfl
  exact h x rfl

theorem modifyInnermost_eq_self (h : ∀ x, q.source ≠ some (.subquery x)) :
    q.modifyInnermost f = f q := by
  rw [modifyInnermost]
  rintro root calls slots x joins unions rfl
  exact h x rfl

/-- A change that adds no subquery changes the query that is reached through subqueries. -/
theorem innermost_modifyInnermost (hf : ∀ q, (f q).source = q.source) (q : Query) :
    (q.modifyInnermost f).innermost = f q.innermost := by
  fun_induction modifyInnermost f q with
  | case1 root calls slots x joins unions ih => exact ih
  | case2 q h =>
    have hq := source_ne_subquery fun _ _ _ _ _ _ ↦ h _ _ _ _ _ _
    rw [innermost_eq_self hq, innermost_eq_self fun x ↦ hf q ▸ hq x]

end Query

/-- The predicates of the innermost `WHERE`. -/
def innerItems (q : Query) : List Text := q.innermost.slots.condition.getD []

theorem innerItems_inject (q : Query) (cs : List Text) :
    innerItems (Filter.inject q cs) = Filter.conjoin (innerItems q) cs := by
  rw [Filter.inject]
  split
  · simp_all [Filter.conjoin]
  · rw [innerItems, Query.innermost_modifyInnermost]
    · rfl
    · exact fun _ ↦ rfl

/-- Injected predicates restrict the whole innermost condition exactly if every disjunct but the last
has them as conjuncts already. -/
theorem inject_restricts_iff {q : Query} {items cs : List (List Token)} (hq : innerItems q = items.map textOf)
    (hi : IsChain items) (hc : ∀ c ∈ cs, IsPredicate c) :
    ∃ old new, ofItems? (innerItems q) = some old ∧
      ofItems? (innerItems (Filter.inject q (cs.map textOf))) = some new ∧
      ((∀ v, new.holds v = (old.holds v && cs.all fun c ↦ v (codeOf c))) ↔
        ∀ d ∈ old.dropLast, ∀ c ∈ cs, codeOf c ∈ d) := by
  obtain ⟨h, ds, d, h₁, h₂⟩ := ofChain_foldl hi hc
  refine ⟨ofChain items, ofChain (cs.foldl linkTo items), hq ▸ ofItems?_textOf hi, ?_, ?_⟩
  · rw [innerItems_inject, hq, conjoin_textOf]
    exact ofItems?_textOf h
  · rw [h₁, h₂, List.dropLast_concat]
    have := holds_append_last ds d (cs.map codeOf)
    simp only [List.all_map, List.mem_map, forall_exists_index, and_imp, forall_apply_eq_imp_iff₂] at this
    exact this

theorem inject_misses_first_disjunct :
    let q : Query := { slots := { condition := some ["a = 1", "OR b = 2"] } }
    ∃ old new, ofItems? (innerItems q) = some old ∧ ofItems? (innerItems (Filter.inject q ["c = 3"])) = some new ∧
      ¬ ∀ v, new.holds v =
        (old.holds v && v [⟨.identifier, "c"⟩, ⟨.operator, "="⟩, ⟨.number, "3"⟩]) := by
  let a : List Token := [⟨.identifier, "a"⟩, space, ⟨.operator, "="⟩, space, ⟨.number, "1"⟩]
  let b : List Token := [⟨.conjunction, "OR"⟩, space, ⟨.identifier, "b"⟩, space, ⟨.operator, "="⟩, space,
    ⟨.number, "2"⟩]
  let c : List Token := [⟨.identifier, "c"⟩, space, ⟨.operator, "="⟩, space, ⟨.number, "3"⟩]
  have hb : IsPiece b := by decide
  have hi : IsChain [a, b] := ⟨by decide, by simpa using ⟨hb, _, _, rfl, rfl, by decide⟩⟩
  have hc : ∀ p ∈ [c], IsPredicate p := by decide
  obtain ⟨old, new, h₁, h₂, h₃⟩ :=
    inject_restricts_iff (q := { slots := { condition := some ["a = 1", "OR b = 2"] } }) rfl hi hc
  refine ⟨old, new, h₁, h₂, fun h ↦ ?_⟩
  have he := h₃.1 fun v ↦ by simpa [c, codeOf, space] using h v
  obtain rfl : old = ofChain [a, b] := Option.some.inj (h₁.symm.trans (ofItems?_textOf hi))
  exact absurd he (by decide)

end QueryTemplate
