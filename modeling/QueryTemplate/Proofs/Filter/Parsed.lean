import QueryTemplate.Proofs.Filter.Addition
import QueryTemplate.Proofs.Query.Conditioned
namespace QueryTemplate

open Token Fragment

variable {f : Text} {g : Fragment} {d d' e : Draft} {k : Nat} {p t : Token} {ts us : List Token} {q : Query}

namespace Fragment

/-- An expression put behind `AND`. -/
def behindAnd (g : Fragment) : Fragment := { g with text := "AND " ++ g.text }

theorem needsSpace_behindAnd {s : Text} (hs : s ≠ []) (t : Token) : needsSpace ("AND " ++ s) t = needsSpace s t := by
  have hw : trailingWord ("AND " ++ s) = trailingWord s := trailingWord_append (.inr (by decide))
  have hl : ("AND " ++ s : Text).getLast? = s.getLast? := by
    rw [List.getLast?_append, List.getLast?_eq_some_getLast hs]
    rfl
  rw [needsSpace, needsSpace, hw, hl]

theorem pushToken_behindAnd (hg : g.text ≠ []) (t : Token) : g.behindAnd.pushToken t = (g.pushToken t).behindAnd := by
  simp only [Fragment.pushToken, behindAnd, needsSpace_behindAnd hg, List.append_assoc]

theorem pushText_behindAnd (s : Text) : g.behindAnd.pushText s = (g.pushText s).behindAnd := by
  simp [Fragment.pushText, behindAnd]

theorem Trimmed.behindAnd (h : g.Trimmed) (hg : g.text ≠ []) : g.behindAnd.Trimmed := by
  refine ⟨⟨fun e ↦ absurd (h.code e) hg, h.line⟩, ⟨?_, fun c hc ↦ h.solid.last c ?_⟩, fun e ↦ absurd e (by simp [Fragment.behindAnd])⟩
  · rintro c ⟨⟩
    rfl
  · rw [Fragment.behindAnd, List.getLast?_append, List.getLast?_eq_some_getLast hg] at hc
    rw [List.getLast?_eq_some_getLast hg]
    exact hc

end Fragment

/-- Drafts that read the condition of a statement without and with a filter in front of it. -/
inductive Draft.Behind (f : Text) : Draft → Draft → Prop
  | first {q : Query} {g : Fragment} (hg : g.text ≠ []) :
    Behind f ⟨q.assign [] (.slot .condition), .slot .condition, g⟩
      ⟨q.assign [f] (.slot .condition), .slot .condition, g.behindAnd⟩
  | next {q : Query} {g : Fragment} {x : Text} {xs : List Text} :
    Behind f ⟨q.assign (x :: xs) (.slot .condition), .slot .condition, g⟩
      ⟨q.assign (f :: ("AND " ++ x) :: xs) (.slot .condition), .slot .condition, g⟩

namespace Draft

theorem action_congr (hc : d'.clause = d.clause) (hf : d'.fragment.isBalanced = d.fragment.isBalanced)
    (hq : ∀ c, d'.query.has c = d.query.has c) (t : Token) : d'.action t = d.action t := by
  rw [action, action, hc, hf]
  simp only [hq]

namespace Behind

theorem clause (h : Behind f d d') : d.clause = .slot .condition ∧ d'.clause = .slot .condition := by
  cases h <;> exact ⟨rfl, rfl⟩

theorem action (h : Behind f d d') (t : Token) : d'.action t = d.action t := by
  refine action_congr (h.clause.2.trans h.clause.1.symm) ?_ (fun c ↦ ?_) t
  · cases h <;> rfl
  · cases h <;> rw [Query.has_assign rfl, Query.has_assign rfl]

/-- The first predicate is put behind the filter with `AND`. -/
theorem flush (h : Behind f d d') (ht : d.fragment.Trimmed) : ∃ (q : Query) (x : Text) (xs : List Text),
    d.flush = ⟨q.assign (x :: xs) (.slot .condition), .slot .condition, {}⟩ ∧
      d'.flush = ⟨q.assign (f :: ("AND " ++ x) :: xs) (.slot .condition), .slot .condition, {}⟩ := by
  cases h with
  | @first q g hg =>
    have ht' : g.behindAnd.Trimmed := Trimmed.behindAnd ht hg
    have hne : g.behindAnd.text ≠ [] := by simp [Fragment.behindAnd]
    refine ⟨q, g.text, [], ?_, ?_⟩
    · rw [flush_eq ht.toClean, ht.take?, if_neg hg, Option.toList_some, addItems_assign rfl]
      rfl
    · rw [flush_eq ht'.toClean, ht'.take?, if_neg hne, Option.toList_some, addItems_assign rfl]
      rfl
  | @next q g x xs =>
    refine ⟨q, x, xs ++ g.take?.toList, ?_, ?_⟩
    · rw [flush_eq ht.toClean, addItems_assign rfl]
      rfl
    · have ht' : (⟨q.assign (f :: ("AND " ++ x) :: xs) (.slot .condition), .slot .condition, g⟩ : Draft).fragment.Clean :=
        ht.toClean
      rw [flush_eq ht', addItems_assign rfl]
      rfl

theorem pushToken (h : Behind f d d') (ht : t.text ≠ []) : Behind f (d.pushToken t) (d'.pushToken t) := by
  cases h with
  | first hg =>
    rw [Draft.pushToken, Draft.pushToken, pushToken_behindAnd hg]
    exact .first (by simp [Fragment.pushToken, ht])
  | next => exact .next

theorem pushText (h : Behind f d d') (s : Text) : Behind f (d.pushText s) (d'.pushText s) := by
  cases h with
  | first hg =>
    rw [Draft.pushText, Draft.pushText, pushText_behindAnd]
    exact .first (by simp [Fragment.pushText, hg])
  | next => exact .next

/-- A token that is put behind the others, with the list of an `IN`, goes on behind a filter alike. -/
theorem push_step (hp : Behind f (d.pushToken t) (d'.pushToken t)) (ha' : d'.action t = d.action t)
    (ha : d.action t = .pushToken ∨ d.action t = .membership) (hd : d.step [] t ts = .ok (e, us)) :
    ∃ e', d'.step [] t ts = .ok (e', us) ∧ Behind f e e' := by
  rw [Draft.step] at hd
  rw [Draft.step, ha']
  rcases ha with ha | ha
  · rw [ha] at hd ⊢
    obtain ⟨rfl, rfl⟩ := Prod.mk.inj (Except.ok.inj hd)
    exact ⟨_, rfl, hp⟩
  · rw [ha] at hd ⊢
    dsimp only at hd ⊢
    split at hd
    · obtain ⟨rfl, rfl⟩ := Prod.mk.inj (Except.ok.inj hd)
      exact ⟨_, rfl, hp⟩
    · split at hd
      · rename_i ho
        obtain ⟨b, hb, hd⟩ := ok_of_bind hd
        obtain ⟨r, hr, hd⟩ := ok_of_map hd
        obtain ⟨rfl, rfl⟩ := Prod.mk.inj hd
        rw [if_pos ho, hb, Except.bind, hr, Except.map]
        exact ⟨_, rfl, hp.pushText _⟩
      · rename_i ho
        obtain ⟨rfl, rfl⟩ := Prod.mk.inj (Except.ok.inj hd)
        rw [if_neg ho]
        exact ⟨_, rfl, hp⟩

theorem comma (h : Behind f d d') (ht : d.fragment.Trimmed) : Behind f d.comma d'.comma := by
  obtain ⟨q, x, xs, h₁, h₂⟩ := h.flush ht
  rw [Draft.comma, Draft.comma, if_pos h.clause.1, if_pos h.clause.2, h₁, h₂, push_assign rfl, push_assign rfl]
  exact .next

theorem conjunction (h : Behind f d d') (ht : d.fragment.Trimmed) (hl : t.text ≠ []) :
    Behind f (d.conjunction t) (d'.conjunction t) := by
  obtain ⟨q, x, xs, h₁, h₂⟩ := h.flush ht
  have hb : d'.fragment.isBalanced = d.fragment.isBalanced := by cases h <;> rfl
  rw [Draft.conjunction, Draft.conjunction, hb]
  split
  · rw [h₁, h₂]
    exact .next
  · exact h.pushToken hl

/-- A step within the condition does the same with the filter, and so does the keyword that ends the condition. -/
theorem step (h : Behind f d d') (ht : d.fragment.Trimmed) (hl : Lexical t)
    (hk : t.kind ≠ .comment ∧ t.kind ≠ .join ∧ t.kind ≠ .aggregation)
    (hu : isUnionAll t = true → d.fragment.isBalanced = false) (hd : d.step [] t ts = .ok (e, us)) :
    (∃ e', d'.step [] t ts = .ok (e', us) ∧ Behind f e e') ∨
      us = ts ∧ ∃ x xs, e.fragment = {} ∧ e.Past .condition (some (x :: xs)) ∧
        d'.step [] t ts = .ok (e.assign (f :: ("AND " ++ x) :: xs) .condition, ts) := by
  have hm := d.means_action t
  have had := d.admits_action t
  have hpush := fun ha (hd : d.step [] t ts = .ok (e, us)) ↦
    (h.pushToken hl.text_ne_nil).push_step (h.action t) ha hd
  cases ha : d.action t with
  | pushToken => exact .inl (hpush (.inl ha) hd)
  | membership => exact .inl (hpush (.inr ha) hd)
  | skip =>
    rw [Draft.step, ha] at hd
    obtain ⟨rfl, rfl⟩ := Prod.mk.inj (Except.ok.inj hd)
    exact .inl ⟨d', by rw [Draft.step, h.action, ha], h⟩
  | pushComment =>
    rw [ha] at hm
    exact absurd hm hk.1
  | openClause c =>
    rw [Draft.step, ha] at hd
    rw [ha] at had
    obtain ⟨rfl, rfl⟩ := Prod.mk.inj (Except.ok.inj hd)
    obtain ⟨q, x, xs, h₁, h₂⟩ := h.flush ht
    have hc : c ≠ .slot .condition := by
      rintro rfl
      have := had.2
      cases h <;> simp [Query.has, Query.assign] at this
    refine .inr ⟨rfl, x, xs, ?_, ⟨?_, hc⟩, ?_⟩
    · rw [openClause, h₁]
    · rw [openClause, h₁]
      exact (Query.open_get hc).trans (by simp [Query.assign])
    · rw [Draft.step, h.action, ha]
      simp only [openClause, h₁, h₂, Draft.assign]
      rw [← Query.open_assign hc, Query.assign_assign]
  | comma =>
    rw [Draft.step, ha] at hd
    obtain ⟨rfl, rfl⟩ := Prod.mk.inj (Except.ok.inj hd)
    exact .inl ⟨_, by rw [Draft.step, h.action, ha], h.comma ht⟩
  | conjunction =>
    rw [Draft.step, ha] at hd
    obtain ⟨rfl, rfl⟩ := Prod.mk.inj (Except.ok.inj hd)
    exact .inl ⟨_, by rw [Draft.step, h.action, ha], h.conjunction ht hl.text_ne_nil⟩
  | readUnions =>
    rw [ha] at hm
    have hb := hm.2
    rw [hu hm.1] at hb
    cases hb
  | readCall =>
    rw [ha] at hm
    exact absurd hm.1 hk.2.2
  | readJoin =>
    rw [ha] at hm
    exact absurd hm.1 hk.2.1
  | sourceParen =>
    rw [ha] at had
    have hc : d.clause = .source := had
    rw [h.clause.1] at hc
    cases hc

end Behind

/-- A condition is read behind a filter as it is by itself. -/
theorem Behind.parse (h : Behind f d d') (hd : d.Leaves k) (hi : InStatement k ts) (ht : d.fragment.Trimmed)
    (hk : ∀ t ∈ ts, Lexical t ∧ t.kind ≠ .comment ∧ t.kind ≠ .join ∧ t.kind ≠ .aggregation)
    (hq : parseTokens [] ts d = .ok q) : ∃ x xs, q.slots.condition = some (x :: xs) ∧
      parseTokens [] ts d' = .ok (q.assign (f :: ("AND " ++ x) :: xs) (.slot .condition)) := by
  induction hn : ts.length using Nat.strongRecOn generalizing d d' k ts with
  | ind n ih =>
    cases ts with
    | nil =>
      obtain ⟨r, x, xs, h₁, h₂⟩ := h.flush ht
      rw [parseTokens_nil] at hq
      obtain rfl := Except.ok.inj hq
      refine ⟨x, xs, by rw [h₁]; rfl, ?_⟩
      rw [parseTokens_nil, h₁, h₂, Query.assign_assign]
      rfl
    | cons t ts =>
      obtain ⟨hlex, hkt⟩ := hk t List.mem_cons_self
      have hu : isUnionAll t = true → d.fragment.isBalanced = false := by
        refine fun hu ↦ Bool.eq_false_iff.2 fun hf ↦ ?_
        obtain rfl := hd.isBalanced hf
        have := (covered_cons.1 hi.unions).1 (by simp [standing])
        rw [hu] at this
        cases this
      rw [parseTokens_cons] at hq ⊢
      obtain ⟨⟨e, us⟩, hs, hr⟩ := ok_of_bind hq
      obtain ⟨m, he, hi'⟩ := (hd.step hi fun _ _ ↦ opensNoGroup_nil).2 _ hs
      have hl := leaves_step _ hs
      have hsuf := suffix_of_step hs
      have ht' := trimmed_step ht hlex hkt.1 hs
      have hk' : ∀ u ∈ us, Lexical u ∧ u.kind ≠ .comment ∧ u.kind ≠ .join ∧ u.kind ≠ .aggregation := fun u hu ↦
        hk u (List.mem_cons_of_mem _ (hsuf.mem hu))
      rcases h.step ht hlex hkt hu hs with ⟨e', hs', h'⟩ | ⟨rfl, x, xs, -, hp, hs'⟩
      · rw [hs']
        exact ih us.length (by rw [← hn, List.length_cons]; exact Nat.lt_succ_of_le hl) h' he hi' ht' hk' hr rfl
      · rw [hs']
        obtain ⟨h₁, h₂⟩ := hp.parse he hi' ht' (by decide) hk' (fun e ↦ by cases e) (f :: ("AND " ++ x) :: xs)
        refine ⟨x, xs, h₂ q hr, h₁.trans ?_⟩
        rw [hr]
        rfl

end Draft

/-- The tokens with which a condition goes on after `AND`: none that ends a predicate or joins on to the word before. -/
def Token.startsPredicate (t : Token) : Bool :=
  t.kind ≠ .conjunction && t.kind ≠ .clause && t.text ≠ [','] && t.text ≠ [';'] && t.text ≠ [']'] && t.text.head? ≠ some '.'

theorem needsSpace_and (hl : Lexical t) (ht : t.startsPredicate = true) (hc : t.isCloseParen = false) :
    needsSpace "AND" t = true := by
  simp only [startsPredicate, Bool.and_eq_true, decide_eq_true_eq] at ht
  obtain ⟨⟨⟨-, hcomma⟩, hsemi⟩, hbracket⟩ := ht.1
  have hk : t.kind ≠ .closing := by
    intro hk
    rcases hl.closing hk with h | h
    · simp [isCloseParen, hk, h] at hc
    · exact hbracket h
  have hd : Text.isSpace 'D' = false := by decide
  have ho : trailingWord ['A', 'N', 'D'] ∈ spacedWords := by decide
  simp [needsSpace, hk, hcomma, hsemi, ht.2, hd, ho]

namespace Draft

/-- The first token of a condition is put behind `AND`. -/
theorem behind_step {r : Query} (hl : Lexical t) (ht : t.startsPredicate = true) (hc : t.isCloseParen = false)
    (hk : t.kind ≠ .blank ∧ t.kind ≠ .comment ∧ t.kind ≠ .join ∧ t.kind ≠ .aggregation)
    (hd : step [] ⟨r.assign [] (.slot .condition), .slot .condition, {}⟩ t ts = .ok (e, us)) :
    ∃ e', step [] ⟨r.assign [f] (.slot .condition), .slot .condition, Fragment.pushToken .and {}⟩ t ts = .ok (e', us) ∧
      Behind f e e' := by
  have hpush : Behind f (pushToken t ⟨r.assign [] (.slot .condition), .slot .condition, {}⟩)
      (pushToken t ⟨r.assign [f] (.slot .condition), .slot .condition, Fragment.pushToken .and {}⟩) := by
    have hg : Fragment.pushToken t (Fragment.pushToken .and {}) = (Fragment.pushToken t {}).behindAnd := by
      have hs : needsSpace (Fragment.pushToken .and {}).text t = true := needsSpace_and hl ht hc
      rw [Fragment.pushToken, hs]
      rfl
    rw [pushToken, pushToken, hg]
    exact .first (by simp [Fragment.pushToken, hl.text_ne_nil])
  simp only [startsPredicate, Bool.and_eq_true, decide_eq_true_eq] at ht
  have ha : action ⟨r.assign [f] (.slot .condition), .slot .condition, Fragment.pushToken .and {}⟩ t =
      action ⟨r.assign [] (.slot .condition), .slot .condition, {}⟩ t := by
    refine action_congr ?_ ?_ (fun c ↦ ?_) t
    · rfl
    · rfl
    · rw [Query.has_assign rfl, Query.has_assign rfl]
  refine hpush.push_step ha ?_ hd
  cases h : t.kind with
  | membership => exact .inr (by rw [action, h])
  | punctuation => exact .inl (by simp [action, h, isComma, ht])
  | opening => exact .inl (by simp [action, h])
  | blank | comment | join | aggregation | conjunction | clause => simp [h] at hk ht
  | joinConstraint | identifier | string | number | operator | closing | placeholder => exact .inl (by rw [action, h])

theorem past_empty (s : Slot) : Past {} s none := ⟨by cases s <;> rfl, nofun⟩

/-- The keyword of a slot opens it where nothing did before. -/
theorem Leaves.open_slot {s : Slot} (h : d.Leaves 0) (hp : d.Past s none) (hs : s ≠ .aliases)
    (ht : t.clause? = some (.slot s)) (ts : List Token) :
    parseTokens [] (t :: ts) d = parseTokens [] ts ⟨d.flush.query.assign [] (.slot s), .slot s, {}⟩ := by
  have hf : d.fragment.isBalanced = true := by rw [Fragment.isBalanced, h.depth]; rfl
  have hq : ∀ {e : Draft}, e.Past s none → e.query.has (.slot s) = false := fun he ↦ by rw [Query.has, he.slot]; rfl
  obtain ⟨hk, hw⟩ : t.kind = .clause ∧ Clause.ofKeyword? t.keyword = some (.slot s) := by
    rw [clause?] at ht
    split at ht
    · exact ⟨‹_›, ht⟩
    · cases ht
  have ha : d.action t = .openClause (.slot s) := by simp [action, hk, hw, hf, hq hp]
  have hd : d.step [] t ts = .ok (d.openClause (.slot s), ts) := by rw [Draft.step, ha]
  rw [parseTokens_step hd, openClause, Query.open_eq_assign rfl (hq (hp.flush hs)), flush_fragment]

theorem Leaves.assign {s : Slot} (h : d.Leaves k) (xs : List Text) (c : Clause) (g : Fragment) (hg : g.depth = 0) :
    Leaves ⟨d.flush.query.assign xs (.slot s), c, g⟩ 0 :=
  ⟨hg, h.flush.unions⟩

end Draft

theorem name_of_clause? {c : Clause} (h : t.clause? = some c) : t.kind = .clause ∧ c.name = t.keyword := by
  rw [clause?] at h
  split at h
  · exact ⟨‹_›, by simpa using List.find?_some h⟩
  · cases h

theorem isClause_where_iff : isClause "where" t = true ↔ t.clause? = some (.slot .condition) := by
  rw [isClause, Bool.and_eq_true, decide_eq_true_eq, decide_eq_true_eq]
  constructor
  · rintro ⟨hk, hw⟩
    rw [clause?, if_pos hk, hw]
    rfl
  · intro h
    exact ⟨(name_of_clause? h).1, (name_of_clause? h).2.symm⟩

/-- The slots of the clauses before which a missing `WHERE` belongs. -/
theorem slot_of_isTrailing (h : isTrailing t = true) : ∃ s : Slot, t.clause? = some (.slot s) ∧ s ≠ .aliases ∧
    s ≠ .condition ∧ ∀ u : Token, u.clause? = some (.slot s) → isTrailing u = true := by
  have hs : ∀ w ∈ clausesAfterWhere, ∃ s : Slot, Clause.ofKeyword? w = some (.slot s) ∧ s ≠ .aliases ∧
      s ≠ .condition ∧ s.name = w := by
    intro w hw
    simp only [clausesAfterWhere, List.mem_cons, List.not_mem_nil, or_false] at hw
    rcases hw with rfl | rfl | rfl | rfl | rfl
    · exact ⟨.groupBy, rfl, nofun, nofun, rfl⟩
    · exact ⟨.having, rfl, nofun, nofun, rfl⟩
    · exact ⟨.orderBy, rfl, nofun, nofun, rfl⟩
    · exact ⟨.limit, rfl, nofun, nofun, rfl⟩
    · exact ⟨.format, rfl, nofun, nofun, rfl⟩
  simp only [isTrailing, Bool.and_eq_true, decide_eq_true_eq, List.contains_iff_mem] at h ⊢
  obtain ⟨s, hw, ha, hc, hn⟩ := hs _ h.2
  refine ⟨s, by rw [clause?, if_pos h.1, hw], ha, hc, fun u hu ↦ ⟨(name_of_clause? hu).1, ?_⟩⟩
  have hu := (name_of_clause? hu).2
  rw [← hu, show (Clause.slot s).name = t.keyword from hn]
  exact h.2

theorem balanced_of_cut {r : Token → Bool} {a b : List Token} (hb : Balanced ts) (h : cutOutside r ts = some (a, t, b))
    (hk : t.kind = .clause) : Balanced a ∧ Balanced b := by
  obtain ⟨rfl, -, hd, -⟩ := cutOutside_eq_some_iff.1 h
  rw [Balanced, depthRun_append] at hb
  obtain ⟨n, hn, hb⟩ := Option.bind_eq_some_iff.1 hb
  rw [depthAfter_of_depthRun hn, standing, if_neg (by simp [isCloseParen, hk])] at hd
  subst hd
  rw [depthRun, if_neg (by simp [isOpenParen, hk]), if_neg (by simp [isCloseParen, hk])] at hb
  exact ⟨hn, hb⟩

theorem toOption_end {r : Option Draft} {g : Draft → Except Error Query} {o : Except Error Query}
    (h : o.toOption = r.bind fun e ↦ (g e).toOption) (hq : o = .ok q) : ∃ e, r = some e ∧ g e = .ok q := by
  rw [hq] at h
  obtain ⟨e, he, hg⟩ := Option.bind_eq_some_iff.1 h.symm
  exact ⟨e, he, toOption_eq_some.1 hg⟩

theorem opensNoGroup_of_clause (hk : t.kind = .clause) (us : List Token) : OpensNoGroup (t :: us) := by
  rintro o ⟨⟩
  simp [Token.isBlank, isOpenParen, hk]

theorem InStatement.left {a b : List Token} (h : InStatement k (a ++ b)) (ha : depthRun k a = some 0) : InStatement k a :=
  ⟨ha, (covered_append.1 h.unions).1, (covered_append.1 h.joins).1⟩

theorem InStatement.right {n : Nat} {a b : List Token} (h : InStatement k (a ++ b)) (hb : depthRun n b = some 0) :
    InStatement n b :=
  have hs := List.suffix_append a b
  ⟨hb, covered_suffix h.balanced hb hs h.unions, covered_suffix h.balanced hb hs h.joins⟩

namespace IsFilter

/-- A filter is read as a predicate. -/
theorem parse (hp : IsFilter p) (r : Query) (ts : List Token) :
    parseTokens [] (space :: p :: ts) ⟨r.assign [] (.slot .condition), .slot .condition, {}⟩ =
      parseTokens [] ts ⟨r.assign [] (.slot .condition), .slot .condition, Fragment.pushToken p {}⟩ := by
  rw [parse_blank rfl]
  refine parseTokens_step ?_
  rw [Draft.step, Draft.action, hp.kind]
  rfl

theorem flush (hp : IsFilter p) (r : Query) :
    Draft.flush ⟨r.assign [] (.slot .condition), .slot .condition, Fragment.pushToken p {}⟩ =
      ⟨r.assign [p.text] (.slot .condition), .slot .condition, {}⟩ := by
  have ht := trimmed_empty.pushToken hp.lexical (by simp [hp.kind]) (by simp [hp.kind])
  have hx : (Fragment.pushToken p {}).text = p.text := rfl
  rw [Draft.flush_eq ht.toClean, ht.take?, hx, if_neg hp.lexical.text_ne_nil, Option.toList_some, Draft.addItems_assign rfl]
  rfl

theorem parse_and (hp : IsFilter p) (r : Query) (ts : List Token) :
    parseTokens [] (Token.and :: ts) ⟨r.assign [] (.slot .condition), .slot .condition, Fragment.pushToken p {}⟩ =
      parseTokens [] ts ⟨r.assign [p.text] (.slot .condition), .slot .condition, Fragment.pushToken .and {}⟩ := by
  refine parseTokens_step ?_
  have hf : (Fragment.pushToken p {}).isBalanced = true := by
    simp [Fragment.isBalanced, Fragment.pushToken, isOpenParen, isCloseParen, hp.kind]
  have ha : Draft.action ⟨r.assign [] (.slot .condition), .slot .condition, Fragment.pushToken p {}⟩ .and =
    .conjunction := rfl
  rw [Draft.step, ha]
  simp only [Draft.conjunction, hf, if_true, hp.flush]
  rfl

end IsFilter

theorem balanced_trimmed (h : Balanced ts) : Balanced (trimmed ts) := by
  rw [← trimmed_append_blankEnd ts, Balanced, depthRun_append] at h
  obtain ⟨n, hn, h⟩ := Option.bind_eq_some_iff.1 h
  rw [depthRun_blanks fun g hg ↦ isBlank_of_mem_blankEnd hg] at h
  exact hn.trans h

theorem isCloseParen_of_balanced (h : Balanced (t :: ts)) : t.isCloseParen = false := by
  cases hc : t.isCloseParen with
  | false => rfl
  | true =>
    rw [Balanced, depthRun, if_neg (by simp [isOpenParen_of_isCloseParen hc]), if_pos hc] at h
    cases h

section

variable {q : Query} {p : Token} {ts a b : List Token} {w t : Token}
  (hi : InStatement 0 ts)
  (hk : ∀ t ∈ ts, Lexical t ∧ t.kind ≠ .comment ∧ t.kind ≠ .join ∧ t.kind ≠ .aggregation)
  (hq : parseTokens [] ts {} = .ok q)

include hi hk hq

/-- A filter in front of a condition becomes its first predicate. -/
theorem parse_withFilter_where (hp : IsFilter p) (hcut : cutOutside (isClause "where") ts = some (a, w, b))
    (hf : ∃ t ∈ (b.dropWhile isBlank).head?, t.startsPredicate = true) :
    ∃ x xs, q.slots.condition = some (x :: xs) ∧
      parseTokens [] (a ++ w :: guarded [p] b) {} = .ok (q.assign (p.text :: ("AND " ++ x) :: xs) (.slot .condition)) := by
  obtain ⟨rfl, hcov, -, hw⟩ := cutOutside_eq_some_iff.1 hcut
  have hkw : w.kind = .clause := (name_of_clause? (isClause_where_iff.1 hw)).1
  obtain ⟨ha, hb⟩ := balanced_of_cut hi.balanced hcut hkw
  have hib : InStatement 0 (b.dropWhile isBlank) :=
    (InStatement.right (a := a ++ [w]) (by simpa using hi) hb).dropBlank
  obtain ⟨r, hr, hrun⟩ := Draft.Leaves.exists_end (d := {}) ⟨rfl, rfl⟩ (hi.left ha) fun t ht ↦
    (hk t (List.mem_append_left _ ht)).2.2
  have hrun := fun us ↦ hrun [] (w :: us) nofun (opensNoGroup_of_clause hkw us)
  simp only [List.nil_append] at hrun
  obtain ⟨D, rfl, hD⟩ := toOption_end (hrun b) hq
  obtain ⟨hL, hP⟩ := hr D rfl
  have hpast := hP .condition none (by decide) (Draft.past_empty _) fun _ ↦ hcov.mono fun t ht ↦
    isClause_where_iff.2 (of_decide_eq_true ht)
  have hopen := fun us ↦ hL.open_slot hpast (by decide) (isClause_where_iff.1 hw) us
  obtain ⟨u, hu, hs⟩ := hf
  obtain ⟨us, e⟩ := List.head?_eq_some_iff.1 hu
  have hmem : ∀ v ∈ u :: us, v ∈ a ++ w :: b := fun v hv ↦
    List.mem_append_right _ (List.mem_cons_of_mem _ ((List.dropWhile_sublist isBlank).mem (e ▸ hv)))
  obtain ⟨hlex, hku⟩ := hk u (hmem u List.mem_cons_self)
  have hblank : u.isBlank = false := by
    have := List.head?_dropWhile_not isBlank b
    rw [e] at this
    simpa using this
  rw [hopen, ← parse_dropWhile, e, parseTokens_cons] at hD
  obtain ⟨⟨E, vs⟩, hE, hq⟩ := ok_of_bind hD
  rw [e] at hib
  obtain ⟨E', hE', hbehind⟩ := Draft.behind_step (f := p.text) hlex hs (isCloseParen_of_balanced hib.balanced)
    ⟨by simpa [Token.isBlank] using hblank, hku⟩ hE
  obtain ⟨m, hm, hvs⟩ := ((hL.assign [] _ _ rfl).step hib fun _ _ ↦ opensNoGroup_nil).2 _ hE
  have hsuf := Draft.suffix_of_step hE
  obtain ⟨x, xs, hx, hparse⟩ := hbehind.parse hm hvs (Draft.trimmed_step trimmed_empty hlex hku.1 hE)
    (fun v hv ↦ hk v (hmem v (List.mem_cons_of_mem _ (hsuf.mem hv)))) hq
  have hguard : guarded [p] b = space :: p :: space :: Token.and :: b := by
    simp [guarded, withSpace, hp.isBlank]
  refine ⟨x, xs, hx, toOption_eq_some.1 ((hrun _).trans ?_)⟩
  rw [Option.bind_some, hopen, hguard, hp.parse, parse_blank rfl, hp.parse_and, ← parse_dropWhile, e,
    parseTokens_cons, hE']
  exact congrArg Except.toOption hparse

/-- Where a condition is added, reading goes on with the filter as the only predicate. -/
theorem exists_added (hp : IsFilter p) (gs us : List Token) (hts : ts = a ++ (gs ++ us)) (ha : Balanced a)
    (hg : ∀ g ∈ gs, g.isBlank = true) (hu : OpensNoGroup us) (hw : Covered (isClause "where") 0 a) :
    ∃ D : Draft, D.Leaves 0 ∧ D.Past .condition none ∧
      (∀ s, s ≠ .aliases → Covered (·.clause? = some (.slot s)) 0 a → D.Past s none) ∧ parseTokens [] us D = .ok q ∧
      ∀ b q', parseTokens [] b ⟨D.flush.query.assign [] (.slot .condition), .slot .condition, Fragment.pushToken p {}⟩ =
        .ok q' → parseTokens [] (a ++ added p b) {} = .ok q' := by
  subst hts
  obtain ⟨r, hr, hrun⟩ := Draft.Leaves.exists_end (d := {}) ⟨rfl, rfl⟩ (hi.left ha) fun t ht ↦
    (hk t (List.mem_append_left _ ht)).2.2
  obtain ⟨D, rfl, hD⟩ := toOption_end (hrun gs us hg hu) hq
  obtain ⟨hL, hP⟩ := hr D rfl
  have hpast := hP .condition none (by decide) (Draft.past_empty _) fun _ ↦ hw.mono fun t ht ↦
    isClause_where_iff.2 (of_decide_eq_true ht)
  refine ⟨D, hL, hpast, fun s hs hc ↦ hP s none hs (Draft.past_empty _) fun _ ↦ hc, hD, fun b q' hb ↦ ?_⟩
  have h := hrun [space] (whereWord :: space :: p :: b) (by simp [space, Token.isBlank]) (opensNoGroup_of_clause rfl _)
  rw [Option.bind_some, hL.open_slot hpast (by decide) (by decide), hp.parse, hb] at h
  exact toOption_eq_some.1 h

/-- A filter at the end of a statement becomes its condition. -/
theorem parse_withFilter_end (hp : IsFilter p) (hw : Covered (isClause "where") 0 ts) :
    q.slots.condition = none ∧
      parseTokens [] (trimmed ts ++ added p (blankEnd ts)) {} = .ok (q.assign [p.text] (.slot .condition)) := by
  have e := trimmed_append_blankEnd ts
  have hb : ∀ g ∈ blankEnd ts, g.isBlank = true := fun g hg ↦ isBlank_of_mem_blankEnd hg
  rw [← e] at hw
  obtain ⟨D, -, hpast, -, hD, hadd⟩ := exists_added hi hk hq hp (blankEnd ts) [] (by rw [List.append_nil, e])
    (balanced_trimmed hi.balanced) hb opensNoGroup_nil (covered_append.1 hw).1
  rw [parseTokens_nil] at hD
  obtain rfl := Except.ok.inj hD
  refine ⟨(hpast.flush (by decide)).slot, hadd _ _ ?_⟩
  rw [← parse_dropWhile, List.dropWhile_eq_nil_iff.2 hb, parseTokens_nil, hp.flush]
  rfl

/-- A filter in front of a clause becomes the condition of the statement. -/
theorem parse_withFilter_trailing (hp : IsFilter p) (hw : Covered (isClause "where") 0 ts)
    (hcut : cutOutside isTrailing ts = some (a, t, b)) :
    q.slots.condition = none ∧
      parseTokens [] (trimmed a ++ added p (space :: t :: b)) {} = .ok (q.assign [p.text] (.slot .condition)) := by
  obtain ⟨rfl, hcov, -, ht⟩ := cutOutside_eq_some_iff.1 hcut
  have hkt := kind_of_isTrailing ht
  obtain ⟨s, hs, hsa, hsc, hst⟩ := slot_of_isTrailing ht
  obtain ⟨hba, hbb⟩ := balanced_of_cut hi.balanced hcut hkt
  have e := trimmed_append_blankEnd a
  have hwa := (covered_append.1 hw).1
  rw [← e] at hwa hcov
  have hsuf : b <:+ a ++ t :: b := ⟨a ++ [t], by simp⟩
  obtain ⟨D, hL, hpast, hP, hD, hadd⟩ := exists_added hi hk hq hp (blankEnd a) (t :: b) (by rw [← List.append_assoc, e])
    (balanced_trimmed hba) (fun g hg ↦ isBlank_of_mem_blankEnd hg) (opensNoGroup_of_clause hkt b) (covered_append.1 hwa).1
  have hps := hP s hsa ((covered_append.1 hcov).1.mono fun u hu ↦ hst u (of_decide_eq_true hu))
  rw [hL.open_slot hps hsa hs] at hD
  -- After the keyword of the clause the drafts differ only in what `WHERE` holds.
  have hE : Draft.Past ⟨D.flush.query.assign [] (.slot s), .slot s, {}⟩ .condition none :=
    ⟨(Slots.get_set_of_ne _ _ (Ne.symm hsc)).trans (hpast.flush (by decide)).slot, fun h ↦ hsc (Clause.slot.inj h)⟩
  have hib : InStatement 0 b := InStatement.right (a := a ++ [t]) (by simpa using hi) hbb
  obtain ⟨h₁, h₂⟩ := hE.parse (hL.assign [] _ _ rfl) hib trimmed_empty (by decide) (fun u hu ↦ hk u (hsuf.mem hu))
    (fun _ ↦ (covered_suffix hi.balanced hbb hsuf hw).mono fun u hu ↦ isClause_where_iff.2 (of_decide_eq_true hu)) [p.text]
  refine ⟨h₂ q hD, hadd _ _ ?_⟩
  have hd : Draft.Leaves ⟨D.flush.query.assign [] (.slot .condition), .slot .condition, Fragment.pushToken p {}⟩ 0 :=
    hL.assign [] _ _ (by simp [Fragment.pushToken, isOpenParen, isCloseParen, hp.kind])
  have hs' : Draft.Past ⟨D.flush.query.assign [] (.slot .condition), .slot .condition, Fragment.pushToken p {}⟩ s none :=
    ⟨(Slots.get_set_of_ne _ _ hsc).trans (hps.flush hsa).slot, fun h ↦ hsc (Clause.slot.inj h).symm⟩
  rw [parse_blank rfl, hd.open_slot hs' hsa hs, hp.flush]
  rw [hD] at h₁
  refine Eq.trans ?_ h₁
  rw [Draft.assign, Query.assign, Query.assign, Query.assign, Query.assign]
  dsimp only
  rw [Slots.set_comm _ _ _ hsc]

end

/-- Adding the time filter to the text of a statement is adding it to the predicates of the query: it comes first in `WHERE`,
and the predicate that was first follows it with `AND`. Nothing else changes. -/
theorem parse_filterStatement {s : Text} {ts : List Token} {q : Query} (hs : tokens? s = .ok ts) (hb : Balanced ts)
    (hk : ∀ t ∈ ts, t.kind ≠ .comment ∧ t.kind ≠ .join ∧ t.kind ≠ .aggregation) (hu : Covered isUnionAll 0 ts)
    (hw : ∀ a w b, cutOutside (isClause "where") ts = some (a, w, b) →
      ∃ t ∈ (b.dropWhile isBlank).head?, t.startsPredicate = true)
    (hq : parse s = .ok q) :
    ∃ (s' : Text) (conditions : List Text), filterStatement s "$timeFilter" = .ok s' ∧
      parse s' = .ok { q with slots := { q.slots with condition := some conditions } } ∧
      (Covered (isClause "where") 0 ts ∧ conditions = [("$timeFilter" : Text)] ∨
        ¬Covered (isClause "where") 0 ts ∧ ∃ (x : Text) (xs : List Text), q.slots.condition = some (x :: xs) ∧
          conditions = ("$timeFilter" : Text) :: ("AND " ++ x : Text) :: xs) := by
  obtain ⟨rfl, hl⟩ := tokens?_eq_ok_iff.1 hs
  have hp := isFilter_timeFilter
  have hc : ∀ t ∈ ts, t.kind ≠ .comment := fun t ht ↦ (hk t ht).1
  have hi : InStatement 0 ts := ⟨hb, hu, covered_of_forall fun t ht ↦ by simpa using (hk t ht).2.1⟩
  have hk : ∀ t ∈ ts, Lexical t ∧ t.kind ≠ .comment ∧ t.kind ≠ .join ∧ t.kind ≠ .aggregation := fun t ht ↦
    ⟨hl.lexical t ht, hk t ht⟩
  rw [parse_textOf hl] at hq
  -- What the tokens of the filtered statement are read as is what its text is read as.
  have hread : ∀ {conditions : List Text}, parseTokens [] (withFilter ⟨.placeholder, "$timeFilter"⟩ ts) {} =
      .ok (q.assign conditions (.slot .condition)) →
      parse (textOf (withFilter ⟨.placeholder, "$timeFilter"⟩ ts)) = .ok (q.assign conditions (.slot .condition)) :=
    fun h ↦ (parse_textOf (lexed_withFilter hl hc hp)).trans h
  have hfs := filterStatement_textOf hl hc ⟨.placeholder, "$timeFilter"⟩
  rcases withFilter_cases ⟨.placeholder, "$timeFilter"⟩ ts with ⟨a, w, b, hcut, e⟩ | ⟨hcov, ⟨a, t, b, hcut, e⟩ | ⟨-, e⟩⟩
  · obtain ⟨x, xs, hx, h⟩ := parse_withFilter_where hi hk hq hp hcut (hw a w b hcut)
    refine ⟨_, _, hfs, hread (e ▸ h), .inr ⟨fun hcov ↦ ?_, x, xs, hx, rfl⟩⟩
    rw [cutOutside_eq_none_iff.2 hcov] at hcut
    cases hcut
  · have h := (parse_withFilter_trailing hi hk hq hp hcov hcut).2
    exact ⟨_, _, hfs, hread (e ▸ h), .inl ⟨hcov, rfl⟩⟩
  · have h := (parse_withFilter_end hi hk hq hp hcov).2
    exact ⟨_, _, hfs, hread (e ▸ h), .inl ⟨hcov, rfl⟩⟩

theorem parse_filterStatement_predicate :
    ∃ (s' : Text) (q : Query), filterStatement "SELECT a FROM t WHERE b" "$timeFilter" = .ok s' ∧ parse s' = .ok q ∧
      q.slots.condition = some [("$timeFilter" : Text), ("AND b" : Text)] := by
  have hl : Lexed [⟨.clause, "SELECT"⟩, ⟨.blank, " "⟩, ⟨.identifier, "a"⟩, ⟨.blank, " "⟩, ⟨.clause, "FROM"⟩, ⟨.blank, " "⟩,
      ⟨.identifier, "t"⟩, ⟨.blank, " "⟩, ⟨.clause, "WHERE"⟩, ⟨.blank, " "⟩, ⟨.identifier, "b"⟩] := by decide +kernel
  have hq : parse "SELECT a FROM t WHERE b" = .ok (Draft.flush ⟨{
      slots := { select := some ["a"], condition := some [] }, source := some (.table ["t"]) },
      .slot .condition, ⟨"b", 0, false, false⟩⟩).query := by
    refine (parse_textOf hl).trans ?_
    refine (parseTokens_step rfl).trans ?_
    refine (parseTokens_step rfl).trans ?_
    refine (parseTokens_step rfl).trans ?_
    refine (parseTokens_step rfl).trans ?_
    refine (parseTokens_step rfl).trans ?_
    refine (parseTokens_step rfl).trans ?_
    refine (parseTokens_step rfl).trans ?_
    refine (parseTokens_step rfl).trans ?_
    refine (parseTokens_step rfl).trans ?_
    refine (parseTokens_step rfl).trans ?_
    refine (parseTokens_step rfl).trans ?_
    exact parseTokens_nil.trans rfl
  have hw : ∀ a w b, cutOutside (isClause "where") [⟨.clause, "SELECT"⟩, ⟨.blank, " "⟩, ⟨.identifier, "a"⟩, ⟨.blank, " "⟩,
      ⟨.clause, "FROM"⟩, ⟨.blank, " "⟩, ⟨.identifier, "t"⟩, ⟨.blank, " "⟩, ⟨.clause, "WHERE"⟩, ⟨.blank, " "⟩,
      ⟨.identifier, "b"⟩] = some (a, w, b) → ∃ t ∈ (b.dropWhile isBlank).head?, t.startsPredicate = true := by
    intro a w b h
    obtain rfl : [⟨.blank, " "⟩, ⟨.identifier, "b"⟩] = b := congrArg (fun r ↦ r.2.2) (Option.some.inj h)
    exact ⟨⟨.identifier, "b"⟩, rfl, by decide⟩
  obtain ⟨s', _, hs', hp, ⟨hcov, -⟩ | ⟨-, x, xs, hx, rfl⟩⟩ := parse_filterStatement (tokens?_eq_ok_iff.2 ⟨rfl, hl⟩)
    (by decide) (by decide) (by decide) hw hq
  · exact absurd hcov (by decide)
  · cases hx
    exact ⟨s', _, hs', hp, rfl⟩

end QueryTemplate
