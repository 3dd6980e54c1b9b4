import QueryTemplate.Proofs.Query.Stretch
import QueryTemplate.Proofs.Query.Filling
namespace QueryTemplate

open Token Fragment

namespace Query

/-- What a clause holds, a list of items as it stands in `FROM`. -/
def cell (q : Query) : Clause → Option (Source Query)
  | .root => some (.table q.root)
  | .slot s => (q.slots.get s).map .table
  | .source => q.source
  | _ => none

/-- Nothing but the clause `c` was changed, and the aliases of a subquery. -/
structure Differs (c : Clause) (q q' : Query) : Prop where
  cell : ∀ e, e ≠ c → e ≠ .slot .aliases → q'.cell e = q.cell e
  rest : q'.calls = q.calls ∧ q'.joins = q.joins ∧ q'.unions = q.unions
  aliases : q'.has (.slot .aliases) = true → q.has (.slot .aliases) = true ∨
    ∃ r, q'.source = some (.subquery r)
  kept : ∀ r, q.source = some (.subquery r) → q'.source = some (.subquery r)

variable {c e : Clause} {q q' q'' : Query} {xs ys : List Text}

theorem Differs.refl : Differs c q q := ⟨fun _ _ _ ↦ rfl, ⟨rfl, rfl, rfl⟩, .inl, fun _ ↦ id⟩

theorem Differs.trans (h : Differs c q q') (h' : Differs c q' q'') : Differs c q q'' := by
  obtain ⟨h₁, h₂, h₃⟩ := h.rest
  obtain ⟨i₁, i₂, i₃⟩ := h'.rest
  refine ⟨fun e hc ha ↦ (h'.cell e hc ha).trans (h.cell e hc ha),
    ⟨i₁.trans h₁, i₂.trans h₂, i₃.trans h₃⟩,
    fun ha ↦ ?_, fun r hr ↦ h'.kept r (h.kept r hr)⟩
  rcases h'.aliases ha with ha | ha
  · rcases h.aliases ha with ha | ⟨r, hr⟩
    · exact .inl ha
    · exact .inr ⟨r, h'.kept r hr⟩
  · exact .inr ha

theorem has_eq_isSome_cell (he : e ∈ Clause.keywordClauses) (hu : e ≠ .unions) :
    q.has e = (q.cell e).isSome := by
  cases e with
  | slot s => simp [has, cell]
  | source => rfl
  | unions => exact absurd rfl hu
  | root | call => simp [Clause.keywordClauses] at he

theorem Differs.has (h : Differs c q q') (hq : q.has c = true) (hq' : q'.has c = true)
    (he : e ∈ Clause.keywordClauses) :
    q'.has e = q.has e := by
  have ha : e ≠ .slot .aliases := by
    have hall : ∀ c ∈ Clause.keywordClauses, c ≠ .slot .aliases := by decide
    exact hall e he
  by_cases hc : e = c
  · rw [hc, hq, hq']
  · by_cases hu : e = .unions
    · rw [hu, Query.has, Query.has, h.rest.2.2]
    · rw [has_eq_isSome_cell he hu, has_eq_isSome_cell he hu, h.cell e hc ha]

/-- Where a clause holds a list, an item more makes no other difference. -/
theorem push_cell {D : Draft} (h : D.query.cell D.clause = some (.table xs)) (x : Text) :
    (D.push x).query.cell D.clause = some (.table (xs ++ [x])) ∧
      Differs D.clause D.query (D.push x).query := by
  obtain ⟨q, c, f⟩ := D
  cases c with
  | root =>
    obtain rfl : q.root = xs := by simpa [cell] using h
    refine ⟨rfl, fun e hc _ ↦ ?_, ⟨rfl, rfl, rfl⟩, .inl, fun _ ↦ id⟩
    cases e <;> first | rfl | exact absurd rfl hc
  | slot s =>
    have hs : q.slots.get s = some xs := by simpa [cell] using h
    have hp : (Draft.push x ⟨q, .slot s, f⟩).query = { q with slots := q.slots.set (xs ++ [x]) s } := by
      simp [Draft.push, push?, modify?, hs]
    rw [hp]
    refine ⟨by simp [cell], fun e hc _ ↦ ?_, ⟨rfl, rfl, rfl⟩, fun ha ↦ .inl ?_, fun _ ↦ id⟩
    · cases e with
      | slot r => exact congrArg (Option.map Source.table) (q.slots.get_set_of_ne _ fun e ↦ hc (by rw [e]))
      | root | source | unions | call => rfl
    · by_cases he : s = .aliases
      · rw [← he]
        simp [Query.has, hs]
      · rwa [Query.has, q.slots.get_set_of_ne _ (Ne.symm he)] at ha
  | source =>
    have hs : q.source = some (.table xs) := h
    have hp : (Draft.push x ⟨q, .source, f⟩).query = { q with source := some (.table (xs ++ [x])) } := by
      simp [Draft.push, push?, modify?, hs]
    rw [hp]
    refine ⟨rfl, fun e hc _ ↦ ?_, ⟨rfl, rfl, rfl⟩, .inl, fun r hr ↦ ?_⟩
    · cases e <;> first | rfl | exact absurd rfl hc
    · rw [hs] at hr
      cases hr
  | unions | call => cases h

theorem addItems_cell {D : Draft} (h : D.query.cell D.clause = some (.table xs)) (ys : List Text) :
    (D.addItems ys).query.cell D.clause = some (.table (xs ++ ys)) ∧
      Differs D.clause D.query (D.addItems ys).query := by
  induction ys generalizing D xs with
  | nil =>
    rw [List.append_nil]
    exact ⟨h, .refl⟩
  | cons y ys ih =>
    obtain ⟨h₁, h₂⟩ := push_cell h y
    rw [← D.push_clause y] at h₁
    obtain ⟨i₁, i₂⟩ := ih h₁
    rw [D.push_clause, List.append_assoc] at i₁
    rw [D.push_clause] at i₂
    exact ⟨i₁, h₂.trans i₂⟩

/-- A subquery in place of tables. -/
theorem differs_subquery (h : q.source = some (.table xs)) (r : Query) :
    Differs .source q { q with source := some (.subquery r) } := by
  refine ⟨fun e hc _ ↦ ?_, ⟨rfl, rfl, rfl⟩, fun _ ↦ .inr ⟨r, rfl⟩, fun r hr ↦ ?_⟩
  · cases e <;> first | rfl | exact absurd rfl hc
  · rw [h] at hr
    cases hr

/-- Aliases of a subquery. -/
theorem differs_aliases {D : Draft} {r : Query} (hc : D.clause = .slot .aliases)
    (hr : D.query.source = some (.subquery r)) (ys : List Text) :
    Differs .source D.query (D.addItems ys).query := by
  induction ys generalizing D with
  | nil => exact .refl
  | cons y ys ih =>
    obtain ⟨q, c, f⟩ := D
    obtain rfl : c = .slot .aliases := hc
    have hp : (Draft.push y ⟨q, .slot .aliases, f⟩).query =
        { q with slots := q.slots.set ((q.slots.get .aliases).getD [] ++ [y]) .aliases } := rfl
    have hstep : Differs .source q (Draft.push y ⟨q, .slot .aliases, f⟩).query := by
      rw [hp]
      refine ⟨fun e _ ha ↦ ?_, ⟨rfl, rfl, rfl⟩, fun _ ↦ .inr ⟨r, hr⟩, fun _ ↦ id⟩
      cases e with
      | slot s => exact congrArg (Option.map Source.table) (q.slots.get_set_of_ne _ fun e ↦ ha (by rw [e]))
      | root | source | unions | call => rfl
    exact hstep.trans (ih rfl (by rw [hp]; exact hr))

end Query

open Query

variable {c : Clause} {q : Query} {seen : List Clause} {ts : List Token} {t : Token} {d : Nat}

/-- A draft that fills `FROM` with tables at the depth `d`. -/
structure Draft.Sourcing (D : Draft) (d : Nat) : Prop where
  clause : D.clause = .source
  source : ∃ xs, D.query.source = some (.table xs)
  trimmed : D.fragment.Trimmed
  depth : D.fragment.depth = d

/-- The draft ends in a query that differs in `FROM` from what there was. -/
def Draft.EndsFrom (D : Draft) (q : Query) : Prop :=
  ∃ q', D.Ends q' ∧ Differs .source q q' ∧ q'.source.isSome = true

theorem Draft.Sourcing.endsFrom {D : Draft} (h : D.Sourcing 0) : D.EndsFrom D.query := by
  obtain ⟨xs, hs⟩ := h.source
  have hcell : D.query.cell D.clause = some (.table xs) := by rw [h.clause]; exact hs
  obtain ⟨h₁, h₂⟩ := addItems_cell hcell D.fragment.take?.toList
  rw [h.clause] at h₁ h₂
  have hq : D.flush.query = (D.addItems D.fragment.take?.toList).query := by
    rw [D.flush_eq h.trimmed.toClean]; rfl
  have hsome : (D.addItems D.fragment.take?.toList).query.source.isSome = true := by
    rw [show (D.addItems D.fragment.take?.toList).query.source = _ from h₁]
    rfl
  refine ⟨_, ⟨hq, (isBalanced_iff h.depth).2 rfl, fun e he ↦ ?_⟩, h₂, hsome⟩
  exact (h₂.has (by rw [Query.has, hs]; rfl) hsome he).symm

/-- What follows a subquery in `FROM`. -/
theorem parse_after_subquery (rest : Text) (us : List Token) {r : Query}
    (hsub : q.source = some (.subquery r)) (hts : Ordinary ts) (hb : Balanced ts)
    (hseen : ∀ e ∈ Clause.keywordClauses, q.has e = seen.contains e)
    (hcov : Covered (·.opens seen) 0 ts) :
    ∃ D q', parseTokens rest (ts ++ us) ⟨q, .slot .aliases, {}⟩ = parseTokens rest us D ∧
      D.Ends q' ∧
      Differs .source q q' ∧ q'.source = some (.subquery r) := by
  let base : Draft := ⟨q, .slot .aliases, {}⟩
  have hd : ∀ ys, Differs .source q (base.addItems ys).query :=
    differs_aliases (D := base) rfl hsub
  have hkept : ∀ ys, (base.addItems ys).query.source = some (.subquery r) :=
    fun ys ↦ (hd ys).kept r hsub
  have hhas : ∀ ys, ∀ e ∈ Clause.keywordClauses, (base.addItems ys).query.has e = q.has e :=
    fun ys e he ↦
    (hd ys).has (by rw [Query.has, hsub]; rfl) (by rw [Query.has, hkept]; rfl) he
  obtain ⟨D, h₁, h₂, h₃, ys, h₄⟩ :=
    parse_stretch rest us (show base.clause ≠ .source by simp [base])
    (fun ys e he ↦ (hhas ys e he).trans (hseen e he)) stretch_nil hts hb hcov []
  refine ⟨D, _, h₁, ⟨rfl, h₃, fun e he ↦ ?_⟩, ?_, ?_⟩
  · rw [h₂, h₄]
    exact (hhas ys e he).trans (hhas _ e he).symm
  · rw [h₂]
    exact hd _
  · rw [h₂]
    exact hkept _

namespace Draft.Sourcing

variable {D : Draft}

theorem hold (h : D.Sourcing d) {f : Fragment} (hf : f.Trimmed) {n : Nat} (hn : f.depth = n) :
    (D.hold f).Sourcing n :=
  ⟨h.clause, h.source, hf, hn⟩

theorem push (h : D.Sourcing d) (ht : Lexical t ∧ t.isOrdinary = true) (hb : t.isBlank = false)
    {e : Nat} (hd : depthRun d (t :: ts) = some e) :
    (D.pushToken t).Sourcing (after (standing d t) t) :=
  h.hold (h.trimmed.pushToken ht.1 (by simpa [Token.isBlank] using hb) (kind_of_isOrdinary ht.2).1)
    ((depthRun_cons hd).2 h.depth)

theorem flush (h : D.Sourcing d) : D.flush.Sourcing 0 ∧ Differs .source D.query D.flush.query := by
  obtain ⟨xs, hs⟩ := h.source
  have hcell : D.query.cell D.clause = some (.table xs) := by rw [h.clause]; exact hs
  obtain ⟨h₁, h₂⟩ := addItems_cell hcell D.fragment.take?.toList
  rw [h.clause] at h₁ h₂
  rw [D.flush_eq h.trimmed.toClean]
  exact ⟨⟨(D.addItems_clause _).trans h.clause, ⟨_, h₁⟩, trimmed_empty, rfl⟩, h₂⟩

theorem fragment_eq_empty (h : D.Sourcing d) (he : D.sourceIsEmpty = true) : D.fragment = {} :=
  h.trimmed.isEmpty.1 (Bool.and_eq_true_iff.1 he).1

end Draft.Sourcing

theorem Draft.EndsFrom.trans {D : Draft} {q' : Query} (h : Differs .source q q')
    (hD : D.EndsFrom q') : D.EndsFrom q := by
  obtain ⟨r, h₁, h₂, h₃⟩ := hD
  exact ⟨r, h₁, h.trans h₂, h₃⟩

/-- A parenthesis that stands outside of all others in `FROM`. -/
theorem action_sourceParen {D : Draft} (hD : D.Sourcing 0) (ho : t.isOpenParen = true) :
    D.action t = .sourceParen := by
  have hk : t.kind = .opening := by
    simp only [isOpenParen, Bool.and_eq_true, decide_eq_true_eq] at ho
    exact ho.1
  simp [Draft.action, hk, ho, hD.clause, (isBalanced_iff hD.depth).2 rfl]

/-- What follows `FROM` is read whatever stands there; a subquery must be one that is read. -/
theorem parse_source (rest : Text) (us : List Token) {N : Nat}
    (hN : ∀ b : List Token, b.length < N → Balanced b → Ordinary b →
      ∃ r, parseTokens [] b {} = .ok r) (hlen : ts.length ≤ N) {D : Draft} (hD : D.Sourcing d)
      (hts : Ordinary ts) (hb : depthRun d ts = some 0)
    (hseen : ∀ e ∈ Clause.keywordClauses, D.query.has e = seen.contains e)
    (hcov : Covered (·.opens seen) d ts) :
    ∃ D', parseTokens rest (ts ++ us) D = parseTokens rest us D' ∧ D'.EndsFrom D.query := by
  induction hn : ts.length using Nat.strongRecOn generalizing ts D d with
  | ind n ih =>
    subst hn
    cases ts with
    | nil =>
      obtain rfl := Option.some.inj hb
      exact ⟨D, rfl, hD.endsFrom⟩
    | cons t ts =>
      obtain ⟨ht, hts'⟩ := ordinary_cons.1 hts
      obtain ⟨hnew, hcov'⟩ := covered_cons.1 hcov
      rw [List.length_cons] at hlen ih
      have next : ∀ {E : Draft}, D.step rest t (ts ++ us) = .ok (E, ts ++ us) →
        E.Sourcing (after (standing d t) t) →
          Differs .source D.query E.query →
          ∃ D', parseTokens rest (t :: ts ++ us) D = parseTokens rest us D' ∧
              D'.EndsFrom D.query := by
        intro E hstep hE hdiff
        obtain ⟨xs, hx⟩ := hD.source
        obtain ⟨xs₁, hx₁⟩ := hE.source
        have hhas : ∀ e ∈ Clause.keywordClauses, E.query.has e = seen.contains e := fun e he ↦
          (hdiff.has (by rw [Query.has, hx]; rfl) (by rw [Query.has, hx₁]; rfl) he).trans
            (hseen e he)
        obtain ⟨D', h₁, h₂⟩ := ih ts.length (by omega) (by omega) hE hts'
          (depthRun_cons (f := {}) hb).1 hhas hcov' rfl
        exact ⟨D', by rw [List.cons_append, parseTokens_step hstep, h₁], h₂.trans hdiff⟩
      cases hbl : t.isBlank with
      | true =>
        have hk : t.kind = .blank := by simpa [Token.isBlank] using hbl
        have hs : after (standing d t) t = d := by
          rw [standing_of_kind (by simp [hk]), after_of_kind (by simp [hk])]
        refine next (E := D) ?_ (hs.symm ▸ hD) .refl
        rw [Draft.step, show D.action t = .skip by simp [Draft.action, hk]]
      | false =>
        have hpush := hD.push ht hbl hb
        by_cases hp : d = 0 ∧ t.isOpenParen = true
        · obtain ⟨rfl, ho⟩ := hp
          obtain ⟨b, e, vs, hcl, rfl, he, hbal, hvs⟩ := exists_group ho hb
          have hgr : group rest (b ++ e :: vs ++ us) = .ok (b, vs ++ us) := by
            rw [group, List.append_assoc, List.cons_append, closing?_append hbal he]
          simp only [List.length_append, List.length_cons] at hlen ih
          obtain ⟨hbo, hvo⟩ := List.forall_mem_append.1 hts'
          obtain ⟨-, hvo⟩ := List.forall_mem_cons.1 hvo
          have hcv := covered_group ho he hbal hcov
          have ha := action_sourceParen hD ho
          cases htf : D.fragment.endsInTableFunction with
          | true =>
            obtain ⟨D', h₁, h₂⟩ := ih vs.length (by omega) (by omega)
              (hD.hold (hD.trimmed.pushText (textOf b)) (n := 0) hD.depth) hvo hvs hseen hcv rfl
            refine ⟨D', ?_, h₂⟩
            rw [List.cons_append, ← h₁]
            refine parseTokens_step ?_
            rw [Draft.step, ha]
            simp only [htf, hgr, Except.bind]
            rfl
          | false =>
            cases hse : D.sourceIsEmpty with
            | true =>
              obtain ⟨r, hr⟩ := hN b (by omega) hbal hbo
              obtain ⟨xs, hx⟩ := hD.source
              have hset := differs_subquery hx r
              have hhas : ∀ e ∈ Clause.keywordClauses,
                  Query.has { D.query with source := some (.subquery r) } e = seen.contains e :=
                    fun e he ↦
                (hset.has (by rw [Query.has, hx]; rfl) rfl he).trans (hseen e he)
              obtain ⟨D', q', h₁, h₂, h₃, h₄⟩ := parse_after_subquery rest us rfl hvo hvs hhas hcv
              refine ⟨D', ?_, q', h₂, hset.trans h₃, by rw [h₄]; rfl⟩
              rw [List.cons_append, ← h₁]
              refine parseTokens_step ?_
              rw [Draft.step, ha]
              simp only [hse, hgr, Except.bind, hr, Except.map, Draft.setSubquery,
                hD.fragment_eq_empty hse]
              rfl
            | false =>
              refine next ?_ hpush .refl
              rw [Draft.step, ha]
              simp only [htf, hse]
              rfl
        · have ha := Draft.action_ordinary ht.2 hbl hseen hD.depth hnew fun h0 ho ↦ absurd ⟨h0,
            ho⟩ hp
          rw [hD.clause, if_neg (by simp [Clause.isPredicate])] at ha
          by_cases hc : d = 0 ∧ t.isComma = true
          · obtain ⟨rfl, hcomma⟩ := hc
            have hk := kind_of_isComma hcomma
            have hs : after (standing 0 t) t = 0 := by
              rw [standing_of_kind (by simp [hk]), after_of_kind (by simp [hk])]
            obtain ⟨h₁, h₂⟩ := hD.flush
            refine next ?_ (hs.symm ▸ h₁) h₂
            rw [Draft.step, ha, if_pos ⟨rfl, hcomma⟩]
            simp only [Draft.comma, hD.clause]
            rfl
          · refine next ?_ hpush .refl
            rw [Draft.step, ha, if_neg hc]

end QueryTemplate
