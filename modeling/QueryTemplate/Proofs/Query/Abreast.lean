import QueryTemplate.Proofs.Query.Anchor
namespace QueryTemplate

open Token

variable {rest : Text} {q q' : Query} {c k : Clause} {xs : List Text} {t : Token}
  {ts us : List Token} {d d' e : Draft} {f g : Fragment}

namespace Clause

theorem isListed_of_keyword (hc : c ∈ keywordClauses) (hu : c ≠ .unions) : c.isListed = true := by
  have hall : ∀ c ∈ keywordClauses, c ≠ .unions → c.isListed = true := by decide
  exact hall c hc hu

theorem ne_of_keyword (hc : c ∈ keywordClauses) : c ≠ .root ∧ c ≠ .slot .aliases ∧
    ∀ n, c ≠ .call n := by
  refine ⟨?_, ?_, fun n ↦ ?_⟩ <;> rintro rfl <;> simp [keywordClauses] at hc

end Clause

namespace Query

theorem has_setCall (n : Text) (a : CallArgs Query) (hk : k ∈ Clause.keywordClauses) :
    (q.setCall n a).has k = q.has k := by
  cases k with
  | call m => exact absurd rfl ((Clause.ne_of_keyword hk).2.2 m)
  | root | source | unions | slot => rfl

theorem has_modify? {g : List Text → List Text} (h : q.modify? c g = some q')
    (hk : k ∈ Clause.keywordClauses) : q'.has k = (decide (k = c) || q.has k) := by
  obtain ⟨hroot, haliases, hcall⟩ := Clause.ne_of_keyword hk
  cases c with
  | root =>
    obtain rfl := Option.some.inj h
    rw [decide_eq_false hroot, Bool.false_or]
    cases k <;> rfl
  | unions => cases h
  | slot s => exact Option.some.inj h ▸ has_assign (c := .slot s) rfl
  | source =>
    simp only [modify?] at h
    split at h
    · exact Option.some.inj h ▸ has_assign (c := .source) rfl
    · exact Option.some.inj h ▸ has_assign (c := .source) rfl
    · rename_i r hs
      obtain rfl := Option.some.inj h
      refine (has_assign (c := .slot .aliases) rfl).trans ?_
      rw [decide_eq_false haliases, Bool.false_or]
      by_cases hks : k = .source
      · simp [hks, has, hs]
      · rw [decide_eq_false hks, Bool.false_or]
  | call n =>
    rw [decide_eq_false (hcall n), Bool.false_or]
    simp only [modify?] at h
    split at h
    · exact Option.some.inj h ▸ has_setCall _ _ hk
    · exact Option.some.inj h ▸ has_setCall _ _ hk
    · cases h

theorem has_open (hc : c ∈ Clause.keywordClauses) :
    (q.open c).has k = (decide (k = c) || q.has k) := by
  by_cases hq : q.has c = true
  · rw [Query.open.eq_def, if_pos hq]
    by_cases hk : k = c
    · rw [hk, hq, Bool.or_true]
    · rw [decide_eq_false hk, Bool.false_or]
  · by_cases hu : c = .unions
    · subst hu
      rw [Query.open.eq_def, if_neg hq]
      cases k <;> simp [has, lookupCall]
    · have hl := Clause.isListed_of_keyword hc hu
      rw [open_eq_assign hl (by simpa using hq), has_assign hl]

theorem open_source_eq (q : Query) :
    (q.open .source).source = some (q.source.getD (.table [])) := by
  rw [Query.open.eq_def]
  cases hs : q.source <;> simp [has, hs]

end Query

namespace Draft

/-- What is put into a clause changes its items, or those before the first clause. -/
theorem push_elim {P : Query → Prop} (x : Text)
    (hm : ∀ g q, d.query.modify? d.clause g = some q → P q)
    (hr : ∀ xs, P { d.query with root := xs }) : P (d.push x).query := by
  rw [push]
  split
  · exact hm _ _ ‹_›
  · exact hr _

theorem flush_elim {P : Query → Prop} (h : P d.query)
    (hm : ∀ g q, d.query.modify? d.clause g = some q → P q)
    (hr : ∀ xs, P { d.query with root := xs }) : P d.flush.query := by
  have hpush : ∀ x, P (push x { d with fragment := {} }).query := fun x ↦ push_elim x hm hr
  rw [flush]
  split
  · exact h
  split
  · exact hpush _
  · rename_i x _ _
    cases hl : pushToLast? x { d with fragment := {} } with
    | none => exact hpush _
    | some d' =>
      simp only [pushToLast?, Option.bind_eq_bind, Option.bind_eq_some_iff] at hl
      obtain ⟨_, -, _, -, q, hq, he⟩ := hl
      exact Option.some.inj he ▸ hm _ _ hq

theorem source_push (hc : d.clause ≠ .source) (x : Text) :
    (d.push x).query.source = d.query.source :=
  push_elim (P := fun q ↦ q.source = d.query.source) x
    (fun _ _ hq ↦ Query.modify?_source hq hc) fun _ ↦ rfl

theorem source_flush (hc : d.clause ≠ .source) : d.flush.query.source = d.query.source :=
  flush_elim (P := fun q ↦ q.source = d.query.source) rfl
    (fun _ _ hq ↦ Query.modify?_source hq hc) fun _ ↦ rfl

/-- The clause that is being filled is open. -/
structure Opened (d : Draft) : Prop where
  has : d.clause ∈ Clause.keywordClauses → d.query.has d.clause = true
  table : d.clause = .source → ∃ xs, d.query.source = some (.table xs)

namespace Opened

theorem empty : Opened {} := ⟨fun h ↦ absurd rfl (Clause.ne_of_keyword h).1, nofun⟩

theorem clause_ne_source (h : d.Opened) (hs : d.query.source = none) :
    d.clause ≠ .source := by
  intro hc
  obtain ⟨xs, hxs⟩ := h.table hc
  rw [hs] at hxs
  cases hxs

/-- What is put into a clause opens no other one. -/
theorem has_of_modify? (h : d.Opened) (hk : k ∈ Clause.keywordClauses)
    {g : List Text → List Text} (hq : d.query.modify? d.clause g = some q) :
    q.has k = d.query.has k := by
  rw [Query.has_modify? hq hk]
  by_cases hc : k = d.clause
  · subst hc
    rw [h.has hk, Bool.or_true]
  · rw [decide_eq_false hc, Bool.false_or]

theorem has_root (hk : k ∈ Clause.keywordClauses) (xs : List Text) :
    ({ q with root := xs } : Query).has k = q.has k := by
  cases k with
  | root => exact absurd rfl (Clause.ne_of_keyword hk).1
  | source | unions | slot | call => rfl

theorem push_has (h : d.Opened) (hk : k ∈ Clause.keywordClauses) (x : Text) :
    (d.push x).query.has k = d.query.has k :=
  push_elim (P := fun q ↦ q.has k = d.query.has k) x (fun _ _ hq ↦ h.has_of_modify? hk hq)
    (has_root hk)

theorem flush_has (h : d.Opened) (hk : k ∈ Clause.keywordClauses) :
    d.flush.query.has k = d.query.has k :=
  flush_elim (P := fun q ↦ q.has k = d.query.has k) rfl (fun _ _ hq ↦ h.has_of_modify? hk hq)
    (has_root hk)

theorem hold (h : d.Opened) (f : Fragment) : (d.hold f).Opened := ⟨h.has, h.table⟩

theorem push (h : d.Opened) (hc : d.clause ≠ .source) (x : Text) : (d.push x).Opened := by
  refine ⟨fun hk ↦ ?_, fun e ↦ absurd ((push_clause x d).symm.trans e) hc⟩
  rw [push_clause] at hk ⊢
  rw [h.push_has hk, h.has hk]

theorem flush (h : d.Opened) : d.flush.Opened := by
  refine ⟨fun hk ↦ ?_, fun e ↦ ?_⟩
  · rw [flush_clause] at hk ⊢
    rw [h.flush_has hk, h.has hk]
  · rw [flush_clause] at e
    obtain ⟨xs, hs⟩ := h.table e
    exact ⟨_, flush_table e hs⟩

theorem openClause (h : d.Opened) (hc : c ∈ Clause.keywordClauses) (hn : d.query.has c = false) :
    (d.openClause c).Opened := by
  refine ⟨fun _ ↦ ?_, ?_⟩
  · exact (Query.has_open hc).trans (Bool.or_eq_true_iff.2 (.inl (decide_eq_true rfl)))
  · rintro rfl
    have hs : d.flush.query.source = none := by
      rw [← h.flush_has hc] at hn
      simpa [Query.has] using hn
    exact ⟨[], (Query.open_source_eq _).trans (by rw [hs]; rfl)⟩

theorem addJoin (h : d.Opened) (j : Join Query) : (d.addJoin j).Opened := by
  refine ⟨fun hk ↦ ?_, h.table⟩
  have := h.has hk
  obtain ⟨q, c, f⟩ := d
  cases c <;> exact this

theorem addCall (h : d.Opened) (n : Text) (a : CallArgs Query) : (d.addCall n a).Opened := by
  have hselect : Clause.slot .select ∈ Clause.keywordClauses := by decide
  refine ⟨fun hk ↦ ?_, fun e ↦ ?_⟩
  · refine (Query.has_open hselect).trans ?_
    rw [Query.has_setCall n a hk]
    exact Bool.or_eq_true_iff.2 (.inr (h.has hk))
  · obtain ⟨xs, hs⟩ := h.table e
    exact ⟨xs, (Query.open_source (by simp)).trans hs⟩

theorem unions (h : d.Opened) (qs : List Query) :
    Opened { d with query := { d.query with unions := some qs } } := by
  refine ⟨fun hk ↦ ?_, h.table⟩
  have := h.has hk
  obtain ⟨q, c, f⟩ := d
  cases c with
  | unions => rfl
  | root | source | slot | call => exact this

theorem step (h : d.Opened) (hd : d.step rest t ts = .ok (d', us)) : d'.Opened := by
  cases stepped_of_step hd with
  | skip => exact h
  | token | comment | tableCall | member | memberToken => exact h.hold _
  | clause _ _ hw hn => exact h.openClause (List.mem_of_find?_eq_some hw) hn
  | comma =>
    rw [comma]
    split
    · rename_i hc
      exact h.flush.push (by simp [flush_clause, hc]) _
    · exact h.flush
  | conjunction =>
    rw [conjunction]
    split
    · exact h.flush.hold _
    · exact h.hold _
  | unions => exact h.flush.unions _
  | call => exact h.flush.addCall _ _
  | subquery =>
    exact ⟨fun hk ↦ absurd rfl (Clause.ne_of_keyword hk).2.1, fun hc ↦ Clause.noConfusion hc⟩
  | arrays | table | joinQuery => exact h.flush.addJoin _

end Opened

/-- Two drafts that will read the same `FROM` from the same tokens. -/
structure Abreast (d e : Draft) : Prop where
  clause : e.clause = d.clause
  source : e.query.source = d.query.source
  has : ∀ k ∈ Clause.keywordClauses, e.query.has k = d.query.has k
  depth : e.fragment.depth = d.fragment.depth
  fragment : d.clause = .source → e.fragment = d.fragment

namespace Abreast

theorem opened (h : d.Abreast e) (ho : d.Opened) : e.Opened := by
  refine ⟨fun hk ↦ ?_, fun hc ↦ ?_⟩
  · rw [h.clause] at hk ⊢
    rw [h.has _ hk, ho.has hk]
  · rw [h.source]
    exact ho.table (h.clause ▸ hc)

theorem isBalanced (h : d.Abreast e) : e.fragment.isBalanced = d.fragment.isBalanced := by
  rw [Fragment.isBalanced, h.depth, Fragment.isBalanced]

theorem hold (h : d.Abreast e) (hd : g.depth = f.depth) (hf : d.clause = .source → g = f) :
    (d.hold f).Abreast (e.hold g) := ⟨h.clause, h.source, h.has, hd, hf⟩

theorem refl (d : Draft) : d.Abreast d := ⟨rfl, rfl, fun _ _ ↦ rfl, rfl, fun _ ↦ rfl⟩

/-- Outside of `FROM`, the text of an expression does not tell what is read next. -/
theorem of_depth (hc : d.clause ≠ .source) (hd : g.depth = f.depth) :
    (d.hold f).Abreast (d.hold g) := (refl d).hold hd fun h ↦ absurd h hc

theorem pushToken (h : d.Abreast e) (t : Token) : (d.pushToken t).Abreast (e.pushToken t) :=
  h.hold (by simp [Fragment.pushToken, h.depth]) fun hc ↦ by rw [h.fragment hc]

theorem pushComment (h : d.Abreast e) (t : Token) : (d.pushComment t).Abreast (e.pushComment t) :=
  h.hold h.depth fun hc ↦ by rw [h.fragment hc]

theorem pushText (h : d.Abreast e) (x : Text) : (d.pushText x).Abreast (e.pushText x) :=
  h.hold h.depth fun hc ↦ by rw [h.fragment hc]

theorem push (h : d.Abreast e) (ho : d.Opened) (hc : d.clause ≠ .source) (x y : Text) :
    (d.push x).Abreast (e.push y) where
  clause := by rw [push_clause, push_clause, h.clause]
  source := by rw [source_push (h.clause ▸ hc), source_push hc, h.source]
  has k hk := by rw [(h.opened ho).push_has hk, ho.push_has hk, h.has k hk]
  depth := by rw [push_fragment, push_fragment, h.depth]
  fragment hs := absurd ((push_clause x d).symm.trans hs) hc

theorem flush (h : d.Abreast e) (ho : d.Opened) : d.flush.Abreast e.flush where
  clause := by rw [flush_clause, flush_clause, h.clause]
  source := by
    by_cases hc : d.clause = .source
    · obtain ⟨xs, hs⟩ := ho.table hc
      rw [flush_table (h.clause.trans hc) (h.source.trans hs), flush_table hc hs, h.fragment hc]
    · rw [source_flush (h.clause ▸ hc), source_flush hc, h.source]
  has k hk := by rw [(h.opened ho).flush_has hk, ho.flush_has hk, h.has k hk]
  depth := by rw [flush_fragment, flush_fragment]
  fragment _ := by rw [flush_fragment, flush_fragment]

theorem openClause (h : d.Abreast e) (ho : d.Opened) (hc : c ∈ Clause.keywordClauses) :
    (d.openClause c).Abreast (e.openClause c) where
  clause := rfl
  source := by
    have hs := (h.flush ho).source
    by_cases hsource : c = .source
    · subst hsource
      refine (Query.open_source_eq _).trans (Eq.trans ?_ (Query.open_source_eq _).symm)
      rw [hs]
    · exact (Query.open_source hsource).trans (hs.trans (Query.open_source hsource).symm)
  has k hk := by
    refine (Query.has_open hc).trans (Eq.trans ?_ (Query.has_open hc).symm)
    rw [(h.flush ho).has k hk]
  depth := (h.flush ho).depth
  fragment _ := by
    refine (flush_fragment e).trans (flush_fragment d).symm

theorem addJoin (h : d.Abreast e) (j : Join Query) : (d.addJoin j).Abreast (e.addJoin j) where
  clause := h.clause
  source := h.source
  has k hk := by
    have := h.has k hk
    cases k <;> exact this
  depth := h.depth
  fragment := h.fragment

theorem addCall (h : d.Abreast e) (n : Text) (a b : CallArgs Query) :
    (d.addCall n a).Abreast (e.addCall n b) where
  clause := h.clause
  source := by
    have hc : Clause.slot .select ≠ .source := nofun
    exact (Query.open_source (q := e.query.setCall n b) hc).trans
      (h.source.trans (Query.open_source (q := d.query.setCall n a) hc).symm)
  has k hk := by
    have hselect : Clause.slot .select ∈ Clause.keywordClauses := by decide
    refine (Query.has_open hselect).trans (Eq.trans ?_ (Query.has_open hselect).symm)
    rw [Query.has_setCall n _ hk, Query.has_setCall n _ hk, h.has k hk]
  depth := h.depth
  fragment := h.fragment

theorem setSubquery (h : d.Abreast e) (r : Query) :
    (d.setSubquery r).Abreast (e.setSubquery r) where
  clause := rfl
  source := rfl
  has k hk := by
    have := h.has k hk
    cases k with
    | source => rfl
    | root | unions | slot | call => exact this
  depth := h.depth
  fragment := nofun

theorem unions (h : d.Abreast e) (qs : List Query) :
    Abreast { d with query := { d.query with unions := some qs } }
      { e with query := { e.query with unions := some qs } } where
  clause := h.clause
  source := h.source
  has k hk := by
    have := h.has k hk
    cases k with
    | unions => rfl
    | root | source | slot | call => exact this
  depth := h.depth
  fragment := h.fragment

theorem comma (h : d.Abreast e) (ho : d.Opened) : d.comma.Abreast e.comma := by
  rw [Draft.comma, Draft.comma, h.clause]
  split
  · rename_i hc
    exact (h.flush ho).push ho.flush (by simp [flush_clause, hc]) _ _
  · exact h.flush ho

theorem conjunction (h : d.Abreast e) (ho : d.Opened) (t : Token) :
    (d.conjunction t).Abreast (e.conjunction t) := by
  rw [Draft.conjunction, Draft.conjunction, h.isBalanced]
  split
  · exact (h.flush ho).pushToken t
  · exact h.pushToken t

/-- A token means the same to both. -/
theorem action (h : d.Abreast e) (t : Token) : e.action t = d.action t := by
  have hhas : ∀ {k}, Clause.ofKeyword? t.keyword = some k → e.query.has k = d.query.has k :=
    fun hw ↦ h.has _ (List.mem_of_find?_eq_some hw)
  cases hk : t.kind with
  | clause =>
    simp only [Draft.action, hk, h.isBalanced]
    cases hw : Clause.ofKeyword? t.keyword with
    | none => rfl
    | some k => simp only [hhas hw]
  | join | aggregation | conjunction | punctuation | opening =>
    simp only [Draft.action, hk, h.isBalanced, h.clause]
  | blank | comment | membership | identifier | string | number | operator | closing | placeholder
  | joinConstraint => simp only [Draft.action, hk]

/-- The same token leads to drafts that are abreast again. -/
theorem step (h : d.Abreast e) (ho : d.Opened) (hd : d.step rest t ts = .ok (d', us)) :
    ∃ e', e.step rest t ts = .ok (e', us) ∧ d'.Abreast e' := by
  have hm := d.admits_action t
  rw [Draft.step] at hd
  rw [Draft.step, h.action t]
  cases ha : d.action t with
  | skip =>
    rw [ha] at hd
    obtain ⟨rfl, rfl⟩ := Prod.mk.inj (Except.ok.inj hd)
    exact ⟨e, rfl, h⟩
  | pushToken =>
    rw [ha] at hd
    obtain ⟨rfl, rfl⟩ := Prod.mk.inj (Except.ok.inj hd)
    exact ⟨_, rfl, h.pushToken t⟩
  | pushComment =>
    rw [ha] at hd
    obtain ⟨rfl, rfl⟩ := Prod.mk.inj (Except.ok.inj hd)
    exact ⟨_, rfl, h.pushComment t⟩
  | openClause c =>
    rw [ha] at hd hm
    obtain ⟨rfl, rfl⟩ := Prod.mk.inj (Except.ok.inj hd)
    exact ⟨_, rfl, h.openClause ho (List.mem_of_find?_eq_some hm.1)⟩
  | comma =>
    rw [ha] at hd
    obtain ⟨rfl, rfl⟩ := Prod.mk.inj (Except.ok.inj hd)
    exact ⟨_, rfl, h.comma ho⟩
  | conjunction =>
    rw [ha] at hd
    obtain ⟨rfl, rfl⟩ := Prod.mk.inj (Except.ok.inj hd)
    exact ⟨_, rfl, h.conjunction ho t⟩
  | readUnions =>
    rw [ha] at hd
    obtain ⟨u, hu, hd⟩ := ok_of_bind hd
    obtain ⟨qs, hqs, hd⟩ := ok_of_map hd
    obtain ⟨rfl, rfl⟩ := Prod.mk.inj hd
    exact ⟨_, by simp only [hu, hqs, Except.bind, Except.map], (h.flush ho).unions qs⟩
  | readCall =>
    rw [ha] at hd
    obtain ⟨p, hp, hd⟩ := ok_of_bind hd
    obtain ⟨q, hq, hd⟩ := ok_of_map hd
    obtain ⟨rfl, rfl⟩ := Prod.mk.inj hd
    exact ⟨_, by simp only [hp, hq, Except.bind, Except.map],
      (h.flush ho).addCall t.text (.ofQuery q) (.ofQuery q)⟩
  | sourceParen =>
    rw [ha] at hd hm
    have hf := h.fragment hm
    have hempty : e.sourceIsEmpty = d.sourceIsEmpty := by
      simp only [sourceIsEmpty, hf, Query.items, h.source]
    simp only [hf, hempty] at hd ⊢
    split at hd
    · rename_i hn
      obtain ⟨rfl, rfl⟩ := Prod.mk.inj (Except.ok.inj hd)
      exact ⟨_, by rw [if_pos hn], h.pushToken t⟩
    · rename_i hn
      obtain ⟨p, hp, hd⟩ := ok_of_bind hd
      split at hd
      · rename_i hl
        obtain ⟨rfl, rfl⟩ := Prod.mk.inj (Except.ok.inj hd)
        exact ⟨_, by simp only [if_neg hn, hp, Except.bind, if_pos hl], h.pushText _⟩
      · rename_i hl
        obtain ⟨q, hq, hd⟩ := ok_of_map hd
        obtain ⟨rfl, rfl⟩ := Prod.mk.inj hd
        exact ⟨_, by simp only [if_neg hn, hp, Except.bind, if_neg hl, hq, Except.map],
          h.setSubquery q⟩
  | membership =>
    rw [ha] at hd
    dsimp only at hd ⊢
    split at hd
    · obtain ⟨rfl, rfl⟩ := Prod.mk.inj (Except.ok.inj hd)
      exact ⟨_, rfl, h.pushToken t⟩
    · split at hd
      · rw [if_pos ‹_›]
        obtain ⟨p, hp, hd⟩ := ok_of_bind hd
        obtain ⟨q, hq, hd⟩ := ok_of_map hd
        obtain ⟨rfl, rfl⟩ := Prod.mk.inj hd
        exact ⟨_, by simp only [hp, hq, Except.bind, Except.map], (h.pushToken t).pushText _⟩
      · rw [if_neg ‹_›]
        obtain ⟨rfl, rfl⟩ := Prod.mk.inj (Except.ok.inj hd)
        exact ⟨_, rfl, h.pushToken t⟩
  | readJoin =>
    rw [ha] at hd
    obtain ⟨⟨start, vs⟩, hp, hd⟩ := ok_of_bind hd
    simp only [hp]
    cases start with
    | arrays xs =>
      obtain ⟨rfl, rfl⟩ := Prod.mk.inj (Except.ok.inj hd)
      exact ⟨_, rfl, (h.flush ho).addJoin _⟩
    | table name =>
      obtain ⟨p, hr, hd⟩ := ok_of_map hd
      obtain ⟨rfl, rfl⟩ := Prod.mk.inj hd
      exact ⟨_, by simp only [Except.bind, hr]; rfl, (h.flush ho).addJoin _⟩
    | subquery b =>
      obtain ⟨q, hq, hd⟩ := ok_of_bind hd
      obtain ⟨p, hr, hd⟩ := ok_of_map hd
      obtain ⟨rfl, rfl⟩ := Prod.mk.inj hd
      exact ⟨_, by simp only [Except.bind, hq, hr]; rfl, (h.flush ho).addJoin _⟩

/-- The same tokens are read to queries with the same `FROM`. -/
theorem parse (h : d.Abreast e) (ho : d.Opened) (hq : parseTokens rest ts d = .ok q) :
    ∃ q', parseTokens rest ts e = .ok q' ∧ q'.source = q.source := by
  induction hn : ts.length using Nat.strongRecOn generalizing ts d e with
  | ind n ih =>
    cases ts with
    | nil =>
      rw [parseTokens_nil] at hq
      obtain rfl := eq_of_atEnd hq
      have hr : rest = [] := by
        rw [atEnd] at hq
        split at hq
        · assumption
        · cases hq
      exact ⟨_, by rw [parseTokens_nil, atEnd, if_pos hr], (h.flush ho).source⟩
    | cons t ts =>
      rw [parseTokens_cons] at hq
      obtain ⟨⟨d', us⟩, hs, hq⟩ := ok_of_bind hq
      obtain ⟨e', he, h'⟩ := h.step ho hs
      have hl : us.length < n := hn ▸ Nat.lt_succ_of_le (suffix_of_step hs).length_le
      rw [parseTokens_step he]
      exact ih us.length hl h' (ho.step hs) hq rfl

end Abreast

/-- Outside of `FROM`, what the parentheses after `IN` or a macro enclose does not tell what is read
after them. -/
theorem Opened.exists_enclosed (h : d.Opened) (hc : d.clause ≠ .source)
    (ht : t.kind = .membership ∨ t.kind = .aggregation ∧ d.fragment.isBalanced = true) :
    ∃ F : Query → Draft, (∀ q q', (F q).Abreast (F q')) ∧
      ∀ {gs z us o e}, (∀ g ∈ gs, g.isBlank = true) → o.isOpenParen = true →
        e.isCloseParen = true → Balanced z → d.step [] t (gs ++ o :: (z ++ e :: us)) =
          (parseTokens [] z {}).map fun q ↦ (F q, us) := by
  rcases ht with ht | ⟨ht, hf⟩
  · refine ⟨fun q ↦ (d.pushToken t).pushText (membershipText q), fun q q' ↦ ?_,
      fun hg ho he hz ↦ step_member ht hg ho he hz⟩
    exact .of_depth (f := (d.fragment.pushToken t).pushText (membershipText q)) hc rfl
  · exact ⟨_, fun q q' ↦ ((Abreast.refl d).flush h).addCall _ _ _,
      fun hg ho he hz ↦ step_call ht hf hg ho he hz⟩

end Draft
end QueryTemplate
