import QueryTemplate.Proofs.Filter.Typeset
namespace QueryTemplate

open Token Fragment Grammar

variable {a b ts : List Token} {cs : List (List Token)} {xs ys : List Filling} {x : Filling}
    {q r : Query} {s : Option (Source Query)}
  {items : List Text} {p : Token × List Token} {parts : List (Token × List Token)}
    {P : Token → Prop}

namespace Query

theorem puts_append (q : Query) (xs ys : List Filling) : q.puts (xs ++ ys) = (q.puts xs).puts ys :=
  List.foldl_append

/-- What is read from in `FROM` does not depend on other clauses. -/
theorem put_source (q : Query) (hx : x.clause ≠ .source) :
    put { q with source := s } x = { q.put x with source := s } := by
  cases x with
  | items c ys => cases c <;> first | rfl | exact absurd rfl hx
  | subquery => exact absurd rfl hx

theorem puts_source (q : Query) (hx : ∀ x ∈ xs, x.clause ≠ .source) :
    puts { q with source := s } xs = { q.puts xs with source := s } := by
  induction xs generalizing q with
  | nil => rfl
  | cons x xs ih =>
    obtain ⟨hx, hxs⟩ := List.forall_mem_cons.1 hx
    rw [puts, List.foldl_cons, put_source q hx, ← puts, ih _ hxs]
    rfl

/-- Neither does what is in `WHERE`. -/
theorem put_condition (q : Query) (hx : x.clause ≠ .slot .condition) :
    (q.assign items (.slot .condition)).put x = (q.put x).assign items (.slot .condition) := by
  cases x with
  | items c ys =>
    cases c with
    | slot s => cases s <;> first | rfl | exact absurd rfl hx
    | root | source | unions | call => rfl
  | subquery r ys =>
    simp only [put]
    split <;> rfl

theorem puts_condition (q : Query) (hx : ∀ x ∈ xs, x.clause ≠ .slot .condition) :
    (q.assign items (.slot .condition)).puts xs = (q.puts xs).assign items (.slot .condition) := by
  induction xs generalizing q with
  | nil => rfl
  | cons x xs ih =>
    obtain ⟨hx, hxs⟩ := List.forall_mem_cons.1 hx
    rw [puts, List.foldl_cons, put_condition q hx, ← puts, ih _ hxs]
    rfl

/-- Lists put into a query make no subquery. -/
theorem puts_items (hq : ∀ r, q.source ≠ some (.subquery r))
    (hx : ∀ x ∈ xs, ∃ c ys, x = .items c ys) :
    ∀ r, (q.puts xs).source ≠ some (.subquery r) := by
  induction xs generalizing q with
  | nil => exact hq
  | cons x xs ih =>
    obtain ⟨⟨c, ys, rfl⟩, hxs⟩ := List.forall_mem_cons.1 hx
    refine ih (fun r ↦ ?_) hxs
    cases c with
    | source => exact nofun
    | root | slot | unions | call => exact hq r

end Query

namespace Filter

variable {conditions : List Text}

theorem inject_subquery (hq : q.source = some (.subquery r)) (hne : conditions ≠ []) :
    inject q conditions = { q with source := some (.subquery (inject r conditions)) } := by
  obtain ⟨_, _, _, _, _, _⟩ := q
  obtain rfl : _ = some _ := hq
  simp only [inject, if_neg hne, Query.modifyInnermost]

theorem inject_table (hq : ∀ r, q.source ≠ some (.subquery r)) (hne : conditions ≠ []) :
    inject q conditions = q.assign (conjoin (q.slots.condition.getD []) conditions)
      (.slot .condition) := by
  have hm : ∀ f : Query → Query, q.modifyInnermost f = f q := by
    intro f
    obtain ⟨_, _, _, s, _, _⟩ := q
    rw [Query.modifyInnermost]
    rintro _ _ _ r _ _ e
    obtain ⟨-, -, -, rfl, -⟩ := e
    exact hq r rfl
  rw [inject, if_neg hne, hm]
  rfl

end Filter

/-- Predicates can be put into the query, and the lines by which it is then printed hold them. -/
structure Receptive (P : Token → Prop) (q : Query) (cs : List (List Token)) : Prop where
  clausal : (Filter.inject q (cs.map textOf)).Clausal
  typeset : Typeset P cs (Filter.inject q (cs.map textOf)).lines

theorem clauseTokens_append (ps qs : List (Token × List Token)) :
    clauseTokens (ps ++ qs) = clauseTokens ps ++ clauseTokens qs :=
  List.flatMap_append

theorem depthRun_clauseTokens (hp : ∀ p ∈ parts, RegularPart p) :
    depthRun 0 (clauseTokens parts) = some 0 := by
  induction parts with
  | nil => rfl
  | cons p parts ih =>
    obtain ⟨hp, hparts⟩ := List.forall_mem_cons.1 hp
    have hb : depthRun 0 p.2 = some 0 := hp.balanced
    have hd : depthRun 0 (p.1 :: p.2) = some 0 := by
      simpa [depthRun, isOpenParen, isCloseParen, hp.heading] using hb
    rw [clauseTokens, List.flatMap_cons, depthRun_append, hd]
    exact ih hparts

/-- What stands before some clauses and these clauses. -/
theorem Placed.clauses {ps qs : List (Token × List Token)} (hp : ∀ p ∈ ps, RegularPart p)
    (hq : ∀ p ∈ qs, RegularPart p) (h : Placed 0 (clauseTokens (ps ++ qs))) :
    Placed 0 (clauseTokens ps) ∧ Placed 0 (clauseTokens qs) := by
  have hd := depthRun_clauseTokens hp
  rw [clauseTokens_append] at h
  refine ⟨?_, h.right hd⟩
  cases qs with
  | nil => simpa [clauseTokens] using h
  | cons p qs =>
    have hk := (hq p List.mem_cons_self).heading
    have htokens : clauseTokens (p :: qs) = p.1 :: (p.2 ++ clauseTokens qs) := rfl
    rw [htokens] at h
    exact h.left hd fun us ↦ (Headed.cons hk (h.tokens p.1 (by simp)).1 us).ahead

theorem noGroup_clauseTokens (hp : ∀ p ∈ parts, RegularPart p) {us : List Token} (hu : NoGroup us) :
    NoGroup (clauseTokens parts ++ us) := by
  cases parts with
  | nil => exact hu
  | cons p parts =>
    have hk := (hp p List.mem_cons_self).heading
    have htokens : clauseTokens (p :: parts) ++ us =
        p.1 :: (p.2 ++ (clauseTokens parts ++ us)) := by simp [clauseTokens]
    rw [htokens, noGroup_cons (by simp [Token.isBlank, hk])]
    simp [isOpenParen, hk]

/-- Clauses in a row, of which there may be none. -/
structure Filled (P : Token → Prop) (parts : List (Token × List Token)) (xs : List Filling) :
    Prop where
  fills : Fills (clauseTokens parts) xs
  typeset : xs = [] ∨ Typeset P [] fun indent ↦ xs.flatMap (·.lines indent)
  clauses : ∀ x ∈ xs, x.clause ∈ Clause.printOrder
  names : xs.map (·.clause.name) = parts.map (·.1.keyword)
  select : .items (.slot .select) [] ∉ xs
  items : ∀ x ∈ xs, (∃ c items, x = .items c items) ∨ ∃ p ∈ parts, ReadsSubquery p

theorem exists_filled (hP : Lax P) (hp : ∀ p ∈ parts, RegularPart p)
    (h : Placed 0 (clauseTokens parts)) (ho : opensComment (clauseTokens parts) = false)
    (ht : ∀ t ∈ clauseTokens parts, P t) : ∃ xs, Filled P parts xs := by
  by_cases hne : parts = []
  · subst hne
    exact ⟨[], fun {q d us} hd _ _ ↦ ⟨d, rfl, hd⟩, .inl rfl, nofun, rfl, nofun, nofun⟩
  · obtain ⟨xs, hxs, hc, hn, hs, hi⟩ := exists_prints hne hp h
    exact ⟨xs, hxs.fills, .inr (hxs.typeset hP ht h ho), hc, hn, hs, hi⟩

/-- A clause that holds predicates stands between others. -/
theorem Filled.receptive {ps qs : List (Token × List Token)} (hP : Lax P) (hp : Filled P ps xs)
    (hq : Filled P qs ys) (hx : Typeset P cs x.lines) (hc : x.clause ∈ Clause.printOrder)
    (hs : x ≠ .items (.slot .select) [])
    (hn : (ps.map (·.1.keyword) ++ x.clause.name :: qs.map (·.1.keyword)).Sublist clauseOrder) :
    (Query.puts {} (xs ++ x :: ys)).Clausal ∧
      Typeset P cs (Query.puts {} (xs ++ x :: ys)).lines := by
  have hclauses : ∀ y ∈ xs ++ x :: ys, y.clause ∈ Clause.printOrder :=
    List.forall_mem_append.2 ⟨hp.clauses, List.forall_mem_cons.2 ⟨hc, hq.clauses⟩⟩
  have hselect : .items (.slot .select) [] ∉ xs ++ x :: ys := by
    simp only [List.mem_append, List.mem_cons, not_or]
    exact ⟨hp.select, hs.symm, hq.select⟩
  obtain ⟨haccepts, hsub⟩ := accepts_of_order hclauses (by simpa [hp.names, hq.names] using hn)
  refine ⟨Query.clausal_puts haccepts hselect (by simp), ?_⟩
  have hlines : (Query.puts {} (xs ++ x :: ys)).lines = fun indent ↦
      xs.flatMap (·.lines indent) ++ (x.lines indent ++ ys.flatMap (·.lines indent)) := by
    funext indent
    rw [Query.lines_puts haccepts hselect hsub]
    simp
  rw [hlines]
  have hright : Typeset P cs fun indent ↦ x.lines indent ++ ys.flatMap (·.lines indent) := by
    rcases hq.typeset with rfl | h
    · simpa using hx
    · simpa using hx.append hP h
  rcases hp.typeset with rfl | h
  · simpa using hright
  · simpa using h.append hP hright

end QueryTemplate
