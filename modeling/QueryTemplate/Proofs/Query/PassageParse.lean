import QueryTemplate.Proofs.Query.Passage
namespace QueryTemplate

open Token Fragment Grammar Formula

/-- Reading a token of an item puts it into the expression. -/
theorem step_of_item {rest : Text} {d : Draft} {t : Token} {n : Nat} {us : List Token}
    (hk : t.kind ∈ exprKinds) (hd : d.fragment.depth = n)
    (hc : standing n t = 0 → endsItem t = false) (ho : d.clause = .source → t.kind ≠ .opening) :
    d.step rest t us = .ok (d.pushToken t, us) := by
  have hn : ∀ k, t.kind = k → k ≠ .closing → endsItem t = true → d.fragment.isBalanced = false := by
    rintro k rfl hk he
    refine Bool.eq_false_iff.2 fun hb ↦ ?_
    rw [hc (by simp [standing, isCloseParen, hk, (isBalanced_iff hd).1 hb])] at he
    cases he
  rw [Draft.step]
  cases e : t.kind with
  | identifier | string | number | operator | closing => simp only [Draft.action, e]
  | opening =>
    have ha : d.action t = .pushToken := by
      simp only [Draft.action, e]
      rw [if_neg]
      simp only [Bool.and_eq_true, decide_eq_true_eq, not_and]
      exact fun _ h ↦ ho h e
    rw [ha]
  | punctuation =>
    have ha : d.action t = .pushToken := by
      simp only [Draft.action, e]
      rw [if_neg]
      simp only [Bool.and_eq_true, not_and]
      intro hb hcm
      rw [hn _ e (by decide) (by simp [endsItem, hcm])] at hb
      cases hb
    rw [ha]
  | conjunction =>
    simp only [Draft.action, e]
    cases d.clause.isPredicate with
    | false => rfl
    | true =>
      have hb := hn _ e (by decide) (by simp [endsItem, e])
      simp only [if_true, Draft.conjunction, hb]
      rfl
  | blank | comment | aggregation | clause | join | joinConstraint | membership | placeholder =>
    rw [e] at hk
    exact absurd hk (by decide)

/-- The tokens of an item are put into the expression one after another. -/
theorem parse_item {rest : Text} {x us : List Token} {d : Draft} {n m : Nat}
    (hx : ∀ t ∈ x, t.kind ≠ .blank → t.kind = .comment ∨ t.kind ∈ exprKinds)
    (hd : d.fragment.depth = n) (hr : depthRun n x = some m) (hc : Covered endsItem n x)
    (ho : d.clause = .source → ∀ t ∈ codeOf x, t.kind ≠ .opening) :
    parseTokens rest (x ++ us) d = parseTokens rest us (d.hold (d.fragment.puts (inked x))) ∧
      (d.fragment.puts (inked x)).depth = m := by
  induction x generalizing d n with
  | nil =>
    obtain rfl := Option.some.inj hr
    exact ⟨rfl, hd⟩
  | cons t x ih =>
    have hx' : ∀ t ∈ x, t.kind ≠ .blank → t.kind = .comment ∨ t.kind ∈ exprKinds :=
      fun u hu ↦ hx u (List.mem_cons_of_mem _ hu)
    have hsame : ∀ k, t.kind = k → k ≠ .opening → k ≠ .closing →
        depthRun n (t :: x) = depthRun n x ∧ after (standing n t) t = n := by
      rintro k rfl ho hc
      simp [depthRun, after, standing, isOpenParen, isCloseParen, ho, hc]
    have hcov := (covered_cons.1 hc).2
    by_cases hb : t.kind = .blank
    · have htb : t.isBlank = true := by simp [Token.isBlank, hb]
      obtain ⟨h₁, h₂⟩ := hsame _ hb (by decide) (by decide)
      rw [List.cons_append, parse_blank htb, inked_cons_blank htb]
      exact ih hx' hd (h₁ ▸ hr) (h₂ ▸ hcov) fun h u hu ↦
        ho h u (by rwa [codeOf_cons_other (.inl hb)])
    · have htb : t.isBlank = false := by simp [Token.isBlank, hb]
      rw [inked_cons htb, Fragment.puts, List.foldl_cons, ← Fragment.puts, List.cons_append]
      rcases hx t List.mem_cons_self hb with hcm | hk
      · obtain ⟨h₁, h₂⟩ := hsame _ hcm (by decide) (by decide)
        have hput : d.fragment.put t = d.fragment.pushComment t := if_pos hcm
        have hs : d.step rest t (x ++ us) = .ok (d.pushComment t, x ++ us) := by
          simp only [Draft.step, Draft.action, hcm]
        rw [parseTokens_step hs, hput]
        exact ih (d := d.pushComment t) hx' hd (h₁ ▸ hr) (h₂ ▸ hcov)
          fun h u hu ↦ ho h u (by rwa [codeOf_cons_other (.inr hcm)])
      · have hcm : t.kind ≠ .comment := by
          intro e
          rw [e] at hk
          exact absurd hk (by decide)
        have hput : d.fragment.put t = d.fragment.pushToken t := if_neg hcm
        have hmem : t ∈ codeOf (t :: x) := mem_codeOf.2 ⟨List.mem_cons_self, hb, hcm⟩
        have hs : d.step rest t (x ++ us) = .ok (d.pushToken t, x ++ us) :=
          step_of_item hk hd (covered_cons.1 hc).1 fun h ↦ ho h t hmem
        obtain ⟨h₁, h₂⟩ := depthRun_cons (f := d.fragment) hr
        rw [parseTokens_step hs, hput]
        exact ih (d := d.pushToken t) hx' (h₂ hd) h₁ hcov
          fun h u hu ↦ ho h u (by rw [codeOf_cons_code hb hcm]; exact List.mem_cons_of_mem _ hu)

namespace Draft

variable {q : Query} {c : Clause} {ys : List Text} {l : List Token}

theorem flush_assign (hc : c.isListed = true) (hl : Inline l) (hcode : codeOf l ≠ []) :
    flush ⟨q.assign ys c, c, Fragment.puts {} l⟩ = ⟨q.assign (ys ++ [itemText l]) c, c, {}⟩ := by
  obtain ⟨t, ht⟩ := List.exists_mem_of_ne_nil _ hcode
  obtain ⟨ht, -, htc⟩ := mem_codeOf.1 ht
  have hh : (Fragment.puts {} l).hasCode = true := by
    rw [hasCode_puts, Bool.false_or, List.any_eq_true]
    exact ⟨t, ht, by simpa using htc⟩
  rw [flush]
  simp only [hl.take?_puts (List.ne_nil_of_mem ht), hh, if_true]
  exact push_assign hc _

theorem ends_assign (hc : c.isListed = true) (hl : Inline l) (hcode : codeOf l ≠ [])
    (hb : (Fragment.puts {} l).depth = 0) :
    Ends ⟨q.assign ys c, c, Fragment.puts {} l⟩ (q.assign (ys ++ [itemText l]) c) where
  query := by rw [flush_assign hc hl hcode]
  balanced := (isBalanced_iff hb).2 rfl
  has e _ := by rw [Query.has_assign hc, Query.has_assign hc]

end Draft

section

variable {rest : Text} {q : Query} {c : Clause} {ys : List Text} {x us : List Token}
    {xs : List (List Token)}

/-- The texts of the items that are read from some tokens. -/
def itemTexts (xs : List (List Token)) : List Text := xs.map fun x ↦ itemText (inked x)

theorem IsItem.parse {d : Draft} (h : IsItem x) (hd : d.fragment.depth = 0)
    (ho : d.clause = .source → ∀ t ∈ codeOf x, t.kind ≠ .opening) :
    parseTokens rest (x ++ us) d = parseTokens rest us (d.hold (d.fragment.puts (inked x))) ∧
      (d.fragment.puts (inked x)).depth = 0 :=
  parse_item (n := 0) (m := 0) (fun _ ht hb ↦ h.kind ht hb) hd (depthRun_codeOf 0 x ▸ h.balanced)
    ((covered_codeOf 0 x).1 h.inner) ho

/-- Items with commas between them are put into their clause. -/
theorem parse_list (hc : c.isListed = true) (hp : c ≠ .slot .condition) (hne : xs ≠ [])
    (hx : ∀ x ∈ xs, IsItem x) (hi : ∀ x ∈ xs, Inline (inked x))
    (ho : c = .source → ∀ x ∈ xs, ∀ t ∈ codeOf x, t.kind ≠ .opening) :
    ∃ d, parseTokens rest (separated [comma] xs ++ us) ⟨q.assign ys c, c,
      {}⟩ = parseTokens rest us d ∧
      d.Ends (q.assign (ys ++ itemTexts xs) c) := by
  induction xs generalizing ys with
  | nil => exact absurd rfl hne
  | cons x xs ih =>
    obtain ⟨hx, hxs⟩ := List.forall_mem_cons.1 hx
    obtain ⟨hin, his⟩ := List.forall_mem_cons.1 hi
    have hcode : codeOf (inked x) ≠ [] := by
      rw [codeOf_inked]
      exact hx.code
    have hitem : ∀ us, parseTokens rest (x ++ us) ⟨q.assign ys c, c, {}⟩ =
          parseTokens rest us ⟨q.assign ys c, c, Fragment.puts {} (inked x)⟩ ∧
        (Fragment.puts {} (inked x)).depth = 0 :=
          fun us ↦ hx.parse rfl fun h ↦ ho h x List.mem_cons_self
    have hends : Draft.Ends ⟨q.assign ys c, c,
      Fragment.puts {} (inked x)⟩ (q.assign (ys ++ [itemText (inked x)]) c) :=
      Draft.ends_assign hc hin hcode (hitem us).2
    cases xs with
    | nil => exact ⟨_, (hitem us).1, hends⟩
    | cons y xs =>
      obtain ⟨d, hd, he⟩ := @ih (ys ++ [itemText (inked x)]) (by simp) hxs his
        fun h z hz ↦ ho h z (List.mem_cons_of_mem _ hz)
      refine ⟨d, ?_, by simpa [itemTexts] using he⟩
      rw [separated, List.append_assoc, List.append_assoc, (hitem _).1, List.singleton_append,
        parse_comma (t := comma) rfl hends.balanced, ← hd, Draft.comma, if_neg (by exact hp)]
      exact congrArg _ (Draft.flush_assign hc hin hcode)

/-- Predicates are put into their clause, each one by the next. -/
theorem parse_conjuncts {l : List Token} (hc : c.isListed = true) (hp : c.isPredicate = true)
    (hl : Inline l) (hcode : codeOf l ≠ []) (hb : (Fragment.puts {} l).depth = 0)
    (hx : ∀ x ∈ xs, IsConjunct x) (hi : ∀ x ∈ xs, Inline (inked x)) :
    ∃ d, parseTokens rest (xs.flatten ++ us) ⟨q.assign ys c, c,
      Fragment.puts {} l⟩ = parseTokens rest us d ∧
      d.Ends (q.assign (ys ++ itemText l :: itemTexts xs) c) := by
  induction xs generalizing ys l with
  | nil => exact ⟨_, rfl, Draft.ends_assign hc hl hcode hb⟩
  | cons x xs ih =>
    obtain ⟨⟨t, y, rfl, ht, hy⟩, hxs⟩ := List.forall_mem_cons.1 hx
    obtain ⟨hin, his⟩ := List.forall_mem_cons.1 hi
    have hk : inked (t :: y) = t :: inked y := inked_cons (by simp [Token.isBlank, ht]) y
    have hopen : t.isOpenParen = false ∧ t.isCloseParen = false := by
      simp [isOpenParen, isCloseParen, ht]
    have hput : ((⟨q.assign (ys ++ [itemText l]) c, c, {}⟩ : Draft).pushToken t).fragment.puts
      (inked y) =
        Fragment.puts {} (inked (t :: y)) := by
      rw [hk, Fragment.puts, Fragment.puts, List.foldl_cons, Fragment.put, if_neg (by simp [ht])]
      rfl
    obtain ⟨h₁, h₂⟩ : parseTokens rest (y ++ (xs.flatten ++ us))
      (.pushToken t ⟨q.assign (ys ++ [itemText l]) c, c, {}⟩) =
          parseTokens rest (xs.flatten ++ us) ⟨q.assign (ys ++ [itemText l]) c, c,
            Fragment.puts {} (inked (t :: y))⟩ ∧
        (Fragment.puts {} (inked (t :: y))).depth = 0 := by
      rw [← hput]
      refine hy.parse (by simp [Draft.pushToken, Fragment.pushToken, hopen]) fun h ↦ ?_
      rw [show c = .source from h] at hp
      cases hp
    obtain ⟨d, hd, he⟩ := @ih (ys ++ [itemText l]) _ hin
      (by rw [hk, codeOf_cons_code] <;> simp [ht]) h₂ hxs his
    refine ⟨d, ?_, by simpa [itemTexts] using he⟩
    rw [List.flatten_cons, List.append_assoc, List.cons_append,
      parse_conjunction ht hp ((isBalanced_iff hb).2 rfl), Draft.flush_assign hc hl hcode, h₁, ← hd]

/-- A passage puts its items into its clause. -/
theorem Passage.WellFormed.parse {p : Passage} {d : Draft} (h : p.WellFormed)
    (hi : ∀ x ∈ p.items, Inline (inked x)) (hc : p.clause.isListed = true) (hd : d.Ends q)
    (hq : q.has p.clause = false) :
    ∃ d', parseTokens rest (p.tokens ++ us) d = parseTokens rest us d' ∧
      d'.Ends (q.assign (itemTexts p.items) p.clause) := by
  rw [Passage.tokens, List.cons_append, hd.parse_heading h.heading.1 h.heading.2 hc hq]
  have ht := h.tail
  rw [Passage.separator]
  cases hp : p.clause.isPredicate with
  | false =>
    rw [hp] at ht
    refine parse_list hc (fun e ↦ ?_) h.ne (fun x hx ↦ ?_) hi h.table
    · rw [e] at hp
      cases hp
    · obtain ⟨y, r, hxs⟩ := List.exists_cons_of_ne_nil h.ne
      rw [hxs] at hx ht
      rcases List.mem_cons.1 hx with rfl | hx
      · exact h.head _ (by rw [hxs]; rfl)
      · exact ht x hx
  | true =>
    rw [hp] at ht
    obtain ⟨y, r, hxs⟩ := List.exists_cons_of_ne_nil h.ne
    have hy := h.head y (by rw [hxs]; rfl)
    rw [hxs] at hi ht ⊢
    obtain ⟨hin, hir⟩ := List.forall_mem_cons.1 hi
    obtain ⟨h₁, h₂⟩ : parseTokens rest (y ++ (r.flatten ++ us)) ⟨q.assign [] p.clause, p.clause,
      {}⟩ =
          parseTokens rest (r.flatten ++ us) ⟨q.assign [] p.clause, p.clause,
            Fragment.puts {} (inked y)⟩ ∧
        (Fragment.puts {} (inked y)).depth = 0 := by
      refine hy.parse rfl fun e ↦ ?_
      rw [show p.clause = .source from e] at hp
      cases hp
    rw [if_pos rfl, separated_nil, List.flatten_cons, List.append_assoc, h₁]
    exact parse_conjuncts hc hp hin (by rw [codeOf_inked]; exact hy.code) h₂ ht hir

/-- The query with the items of some passages. -/
def Query.fill (q : Query) (ps : List Passage) : Query :=
  ps.foldl (fun q p ↦ q.assign (itemTexts p.items) p.clause) q

/-- Passages are read into the clauses that they fill. -/
theorem parse_passages {ps : List Passage} {d : Draft} (hw : ∀ p ∈ ps, p.WellFormed)
    (hi : ∀ p ∈ ps, ∀ x ∈ p.items, Inline (inked x)) (hl : ∀ p ∈ ps, p.clause.isListed = true)
    (hn : (ps.map Passage.clause).Nodup) (hq : ∀ p ∈ ps, q.has p.clause = false) (hd : d.Ends q) :
    parseTokens [] (statement ps) d = .ok (q.fill ps) := by
  induction ps generalizing q d with
  | nil => rw [statement, List.flatMap_nil, parseTokens_nil, hd.query]; rfl
  | cons p ps ih =>
    obtain ⟨hwp, hw⟩ := List.forall_mem_cons.1 hw
    obtain ⟨hip, hi⟩ := List.forall_mem_cons.1 hi
    obtain ⟨hlp, hl⟩ := List.forall_mem_cons.1 hl
    obtain ⟨hqp, hq⟩ := List.forall_mem_cons.1 hq
    obtain ⟨hnp, hn⟩ := List.nodup_cons.1 hn
    obtain ⟨d', h₁, h₂⟩ : ∃ d', parseTokens [] (p.tokens ++ statement ps) d =
      parseTokens [] (statement ps) d' ∧
      d'.Ends (q.assign (itemTexts p.items) p.clause) := hwp.parse hip hlp hd hqp
    rw [statement, List.flatMap_cons, ← statement, h₁]
    refine ih hw hi hl hn (fun r hr ↦ ?_) h₂
    rw [Query.has_assign hlp, hq r hr, Bool.or_false, decide_eq_false_iff_not]
    rintro e
    exact hnp (e ▸ List.mem_map_of_mem hr)

/-- A statement is read as the query that its passages fill. -/
theorem IsSelect.parse {ps : List Passage} (h : IsSelect ps) (hl : Lexed (statement ps)) :
    parse (textOf (statement ps)) = .ok (Query.fill {} ps) := by
  rw [parse_textOf hl]
  refine parse_passages h.passages (h.inline hl) h.isListed h.nodup (fun p hp ↦ ?_) Draft.ends_empty
  have hl := h.isListed p hp
  cases hc : p.clause with
  | slot s => cases s <;> rfl
  | source => rfl
  | root | unions | call =>
    rw [hc] at hl
    cases hl

end

end QueryTemplate
