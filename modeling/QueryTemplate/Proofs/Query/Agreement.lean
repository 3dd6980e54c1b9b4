import QueryTemplate.Proofs.Query.SourceRun
import QueryTemplate.Proofs.Token.Cut
namespace QueryTemplate

open Token Query

variable {c e : Clause} {q q' : Query} {seen : List Clause} {p : Token → Bool} {w ts us : List Token} {t : Token}

theorem covered_iff : Covered p 0 ts ↔ ∀ a t b, ts = a ++ t :: b → standing (depthAfter 0 a) t = 0 → p t = false := by
  constructor
  · rintro h a t b rfl hd
    exact (covered_cons.1 (covered_append.1 h).2).1 hd
  · intro h
    cases hc : cutOutside p ts with
    | none =>
      simp only [cutOutside] at hc
      split at hc
      · rename_i e
        rw [Covered, e]
      · cases hc
    | some x =>
      obtain ⟨a, t, b⟩ := x
      obtain ⟨rfl, -, h₂, h₃⟩ := cutOutside_eq_some_iff.1 hc
      rw [h a t b rfl h₂] at h₃
      cases h₃

theorem kind_of_clause? (h : t.clause? = some c) : t.kind = .clause ∧ Clause.ofKeyword? t.keyword = some c := by
  rw [Token.clause?] at h
  split at h
  · exact ⟨‹_›, h⟩
  · cases h

theorem mem_keywordClauses (h : t.clause? = some c) : c ∈ Clause.keywordClauses :=
  List.mem_of_find?_eq_some (kind_of_clause? h).2

/-- A clause keyword outside of all parentheses cuts balanced tokens into balanced ones. -/
theorem balanced_of_clause (hb : Balanced (w ++ t :: us)) (ht : t.kind = .clause) (hd : standing (depthAfter 0 w) t = 0) :
    Balanced w ∧ Balanced us := by
  rw [standing_of_kind (by simp [ht])] at hd
  rw [Balanced, depthRun_append] at hb
  obtain ⟨n, hn, hus⟩ := Option.bind_eq_some_iff.1 hb
  obtain rfl := (depthAfter_of_depthRun hn).symm.trans hd
  have hskip : depthRun 0 (t :: us) = depthRun 0 us := by simp [depthRun, isOpenParen, isCloseParen, ht]
  exact ⟨hn, hskip.symm.trans hus⟩

/-- A clause has a chapter when its keyword stands outside of all parentheses. -/
theorem exists_chapter_iff (hb : Balanced ts) (he : e ∉ seen) :
    (∃ x ∈ (chapters seen ts).parts, x.1.clause? = some e) ↔ ¬ Covered (fun u ↦ u.clause? = some e) 0 ts := by
  have hmono : ∀ {n : Nat} {a : List Token}, Covered (·.opens seen) n a → Covered (fun u ↦ u.clause? = some e) n a :=
    Covered.mono fun u hu ↦ by simp [Token.opens, show u.clause? = some e by simpa using hu, he]
  induction hn : ts.length using Nat.strongRecOn generalizing ts seen with
  | ind n ih =>
    rcases covered_or_opens seen ts with hc | ⟨w, t, us, c, rfl, hw, hd, ht, hc⟩
    · rw [chapters_of_covered hc]
      simp [hmono hc]
    · obtain ⟨hk, -⟩ := kind_of_clause? ht
      obtain ⟨-, hus⟩ := balanced_of_clause hb hk hd
      have hd' := hd
      rw [standing_of_kind (by simp [hk])] at hd'
      rw [chapters_append hw hd ht hc, covered_append, hd', covered_cons, standing_of_kind (by simp [hk]),
        after_of_kind (by simp [hk])]
      by_cases hce : c = e
      · subst hce
        simp [ht]
      · have hne : e ∉ c :: seen := by simp [he, Ne.symm hce]
        have hrest := ih us.length (by simp at hn; omega) hus hne (fun h ↦ h.mono fun u hu ↦ by
          simp [Token.opens, show u.clause? = some e by simpa using hu, he, Ne.symm hce]) rfl
        simp only [List.mem_cons, or_and_right, exists_or, exists_eq_left, ht, Option.some.injEq, hce, false_or]
        refine hrest.trans (not_congr ?_)
        simp [hmono hw]

theorem chapters_infix : ∀ x ∈ (chapters seen ts).parts, x.2 <:+: ts := by
  induction hn : ts.length using Nat.strongRecOn generalizing ts seen with
  | ind n ih =>
    rcases covered_or_opens seen ts with hc | ⟨w, t, us, c, rfl, hw, hd, ht, hc⟩
    · rw [chapters_of_covered hc]
      nofun
    · have hlead : (chapters (c :: seen) us).lead <+: us := by
        rcases covered_or_opens (c :: seen) us with h | ⟨w', t', us', c', rfl, h₁, h₂, h₃, h₄⟩
        · exact ⟨[], by rw [chapters_of_covered h, List.append_nil]⟩
        · rw [chapters_append h₁ h₂ h₃ h₄]
          exact List.prefix_append _ _
      have hus : us <:+: w ++ t :: us := ⟨w ++ [t], [], by simp⟩
      rw [chapters_append hw hd ht hc]
      refine List.forall_mem_cons.2 ⟨hlead.isInfix.trans hus, fun x hx ↦ ?_⟩
      exact (ih us.length (by simp at hn; omega) rfl x hx).trans hus

/-- What the tokens of a clause put into it. After `FROM` only a subquery that comes first is told. -/
def IsCellOf (c : Clause) (ts : List Token) (x : Option (Source Query)) : Prop :=
  if c = .source then
    ∀ o us, ts.dropWhile isBlank = o :: us → o.isOpenParen = true →
      ∃ b after r, closing? 0 us = some (b, after) ∧ parseTokens [] b {} = .ok r ∧ x = some (.subquery r)
  else x = some (.table (itemsOf c ts))

/-- The tokens of one clause, in which no other one opens. -/
theorem parse_run (us : List Token) {N : Nat}
    (hN : ∀ b : List Token, b.length < N → Balanced b → Ordinary b → ∃ r, parseTokens [] b {} = .ok r)
    (hlen : ts.length ≤ N) (hc : q.cell c = some (.table [])) (hin : c = .root ∨ c ∈ Clause.keywordClauses)
    (hts : Ordinary ts) (hb : Balanced ts) (hseen : ∀ e ∈ Clause.keywordClauses, q.has e = seen.contains e)
    (hcov : Covered (·.opens seen) 0 ts) :
    ∃ D q', parseTokens [] (ts ++ us) ⟨q, c, {}⟩ = parseTokens [] us D ∧ D.Ends q' ∧ Differs c q q' ∧
      (q'.cell c).isSome = true ∧ IsCellOf c ts (q'.cell c) := by
  by_cases hs : c = .source
  · subst hs
    have hq : q.source = some (.table []) := hc
    have hset := differs_subquery hq
    by_cases hopen : ∃ o vs, ts.dropWhile isBlank = o :: vs ∧ o.isOpenParen = true
    · obtain ⟨o, vs, hdw, ho⟩ := hopen
      have hgs : ∀ u ∈ ts.takeWhile isBlank, u.isBlank = true := fun u hu ↦
        List.all_eq_true.1 List.all_takeWhile u hu
      have hsplit : ts = ts.takeWhile isBlank ++ o :: vs := by rw [← hdw, List.takeWhile_append_dropWhile]
      have hb' : depthRun 0 (o :: vs) = some 0 := by
        rw [Balanced, hsplit, depthRun_append, depthRun_blanks hgs] at hb
        exact hb
      obtain ⟨b, e, us', hcl, rfl, he, hbal, hus⟩ := exists_group ho hb'
      have hlen' := congrArg List.length hsplit
      simp only [List.length_append, List.length_cons] at hlen'
      have hov : Ordinary (b ++ e :: us') := fun u hu ↦ hts u (by rw [hsplit]; simp [hu])
      obtain ⟨hbo, hvo⟩ := List.forall_mem_append.1 hov
      obtain ⟨-, hvo⟩ := List.forall_mem_cons.1 hvo
      obtain ⟨r, hr⟩ := hN b (by omega) hbal hbo
      have hcv : Covered (·.opens seen) 0 us' := by
        rw [hsplit, covered_append, depthAfter_of_depthRun (depthRun_blanks hgs)] at hcov
        exact covered_group ho he hbal hcov.2
      have hhas : ∀ e ∈ Clause.keywordClauses, Query.has { q with source := some (.subquery r) } e = seen.contains e :=
        fun e he ↦ ((hset r).has (by rw [Query.has, hq]; rfl) rfl he).trans (hseen e he)
      obtain ⟨D, q', h₁, h₂, h₃, h₄⟩ := parse_after_subquery [] us rfl hvo hus hhas hcv
      refine ⟨D, q', ?_, h₂, (hset r).trans h₃, by rw [cell, h₄]; rfl, ?_⟩
      · rw [hsplit, List.append_assoc, parse_blanks hgs, List.cons_append, List.append_assoc, List.cons_append,
          parse_subquery rfl rfl hq ho he hbal hr]
        exact h₁
      · rw [IsCellOf, if_pos rfl]
        intro o' us'' hdw' _
        rw [hdw] at hdw'
        obtain ⟨rfl, rfl⟩ := List.cons.inj hdw'
        exact ⟨b, us', r, hcl, hr, h₄⟩
    · obtain ⟨D, h₁, q', h₂, h₃, h₄⟩ := parse_source [] us hN hlen (D := ⟨q, .source, {}⟩)
        ⟨rfl, ⟨[], hq⟩, Fragment.trimmed_empty, rfl⟩ hts hb hseen hcov
      refine ⟨D, q', h₁, h₂, h₃, h₄, ?_⟩
      rw [IsCellOf, if_pos rfl]
      exact fun o vs hdw ho ↦ absurd ⟨o, vs, hdw, ho⟩ hopen
  · have hhas : ∀ ys, (Draft.addItems ys ⟨q, c, {}⟩).query.cell c = some (.table ys) ∧
        Differs c q (Draft.addItems ys ⟨q, c, {}⟩).query := addItems_cell (D := ⟨q, c, {}⟩) hc
    have hsame : ∀ ys, ∀ e ∈ Clause.keywordClauses, (Draft.addItems ys ⟨q, c, {}⟩).query.has e = q.has e := by
      intro ys e he
      obtain ⟨h₁, h₂⟩ := hhas ys
      rcases hin with rfl | hin
      · exact h₂.has rfl rfl he
      · have hu : c ≠ .unions := by rintro rfl; cases hc
        exact h₂.has (by rw [has_eq_isSome_cell hin hu, hc]; rfl) (by rw [has_eq_isSome_cell hin hu, h₁]; rfl) he
    obtain ⟨D, h₁, h₂, h₃, ys, h₄⟩ := parse_stretch [] us (show Draft.clause ⟨q, c, {}⟩ ≠ .source from hs)
      (fun ys e he ↦ (hsame ys e he).trans (hseen e he)) stretch_nil hts hb hcov []
    rw [List.nil_append, itemsFrom_zero] at h₂
    refine ⟨D, (Draft.addItems (itemsOf c ts) ⟨q, c, {}⟩).query, h₁, ⟨by rw [h₂]; rfl, h₃, fun e he ↦ ?_⟩, (hhas _).2, ?_, ?_⟩
    · rw [h₄]
      exact (hsame ys e he).trans (hsame _ e he).symm
    · rw [(hhas _).1]
      rfl
    · rw [IsCellOf, if_neg hs]
      exact (hhas _).1

/-- The query `q'` that comes of `q` by reading the chapters `s`, the first one of the clause `c`, with the clauses
`seen` opened before. -/
structure ReadAs (seen : List Clause) (c : Clause) (s : Sections) (q q' : Query) : Prop where
  lead : IsCellOf c s.lead (q'.cell c)
  parts : ∀ x ∈ s.parts, ∀ e, x.1.clause? = some e → IsCellOf e x.2 (q'.cell e)
  cell : ∀ e, e ≠ c → e = .root ∨ e ∈ seen → e ≠ .slot .aliases → q'.cell e = q.cell e
  has : ∀ e ∈ Clause.keywordClauses, q'.has e = true ↔ e ∈ seen ∨ ∃ x ∈ s.parts, x.1.clause? = some e
  rest : q'.calls = q.calls ∧ q'.joins = q.joins ∧ q'.unions = q.unions
  aliases : q'.has (.slot .aliases) = true → q.has (.slot .aliases) = true ∨ ∃ r, q'.source = some (.subquery r)

theorem isListed_of_keyword (hc : c ∈ Clause.keywordClauses) (hu : c ≠ .unions) :
    c.isListed = true ∧ c ≠ .slot .aliases ∧ c ≠ .root := by
  have hall : ∀ c ∈ Clause.keywordClauses, c ≠ .unions → c.isListed = true ∧ c ≠ .slot .aliases ∧ c ≠ .root := by decide
  exact hall c hc hu

theorem cell_assign (hc : c.isListed = true) (xs : List Text) : (q.assign xs c).cell c = some (.table xs) := by
  cases c with
  | slot s => simp [assign, cell]
  | source => rfl
  | root | unions | call => cases hc

theorem cell_assign_of_ne (hc : c.isListed = true) (he : e ≠ c) (xs : List Text) : (q.assign xs c).cell e = q.cell e := by
  cases c with
  | slot s =>
    cases e with
    | slot r => exact congrArg (Option.map Source.table) (q.slots.get_set_of_ne _ fun h ↦ he (by rw [h]))
    | root | source | unions | call => rfl
  | source => cases e <;> first | rfl | exact absurd rfl he
  | root | unions | call => cases hc

/-- Where a clause opens after a run, what is read from there on is read as the rest of the chapters. -/
theorem ReadAs.cons {s : Sections} {Q : Query} (hin : c = .root ∨ c ∈ seen) (hca : c ≠ .slot .aliases) (hd : Differs c q q')
    (hw : IsCellOf c w (q'.cell c)) (hseen : ∀ e ∈ Clause.keywordClauses, q'.has e = seen.contains e)
    (ht : t.clause? = some e) (he : e ∉ seen) (hu : e ≠ .unions) (h : ReadAs (e :: seen) e s (q'.assign [] e) Q) :
    ReadAs seen c ⟨w, (t, s.lead) :: s.parts⟩ q Q := by
  obtain ⟨hl, hea, her⟩ := isListed_of_keyword (mem_keywordClauses ht) hu
  have hkeep : ∀ k, k = .root ∨ k ∈ seen → k ≠ .slot .aliases → Q.cell k = q'.cell k := by
    intro k hk ha
    have hne : k ≠ e := by
      rintro rfl
      exact hk.elim her he
    rw [h.cell k hne (hk.imp_right (List.mem_cons_of_mem _)) ha, cell_assign_of_ne hl hne]
  have hrest : ∀ k, (q'.assign [] e).calls = q'.calls ∧ (q'.assign [] e).joins = q'.joins ∧
      (q'.assign [] e).unions = q'.unions ∧ (k ≠ e → (q'.assign [] e).has k = q'.has k) := by
    intro k
    refine ⟨?_, ?_, ?_, fun hk ↦ by rw [has_assign hl, decide_eq_false hk, Bool.false_or]⟩ <;> cases e <;> rfl
  refine ⟨?_, ?_, fun k hk hin' ha ↦ ?_, fun k hk ↦ ?_, ?_, fun ha ↦ ?_⟩
  · rw [hkeep c hin hca]
    exact hw
  · refine List.forall_mem_cons.2 ⟨fun k hk ↦ ?_, h.parts⟩
    obtain rfl := Option.some.inj (ht.symm.trans hk)
    exact h.lead
  · rw [hkeep k hin' ha, hd.cell k hk ha]
  · rw [h.has k hk]
    simp [ht, or_assoc, or_left_comm, eq_comm]
  · obtain ⟨h₁, h₂, h₃⟩ := h.rest
    obtain ⟨r₁, r₂, r₃, -⟩ := hrest c
    obtain ⟨i₁, i₂, i₃⟩ := hd.rest
    exact ⟨h₁.trans (r₁.trans i₁), h₂.trans (r₂.trans i₂), h₃.trans (r₃.trans i₃)⟩
  · rcases h.aliases ha with ha | ha
    · rw [(hrest _).2.2.2 (Ne.symm hea)] at ha
      rcases hd.aliases ha with ha | ⟨r, hr⟩
      · exact .inl ha
      · have hsrc : Clause.source ∈ seen := by
          have := hseen .source (by decide)
          rw [Query.has, hr] at this
          simpa using this.symm
        exact .inr ⟨r, (hkeep .source (.inr hsrc) (by decide)).trans hr⟩
    · exact .inr ha

theorem parse_chapters {N : Nat} (hN : ∀ b : List Token, b.length < N → Balanced b → Ordinary b → ∃ r, parseTokens [] b {} = .ok r)
    (hlen : ts.length ≤ N) (hc : q.cell c = some (.table [])) (hin : c = .root ∨ c ∈ seen ∧ c ∈ Clause.keywordClauses)
    (hts : Ordinary ts) (hb : Balanced ts) (hseen : ∀ e ∈ Clause.keywordClauses, q.has e = seen.contains e) :
    ∃ q', parseTokens [] ts ⟨q, c, {}⟩ = .ok q' ∧ ReadAs seen c (chapters seen ts) q q' := by
  induction hn : ts.length using Nat.strongRecOn generalizing ts seen q c with
  | ind n ih =>
    have hca : c ≠ .slot .aliases := by
      rcases hin with rfl | ⟨-, hin⟩
      · nofun
      · rintro rfl
        simp [Clause.keywordClauses] at hin
    have hhas : q.has c = true := by
      rcases hin with rfl | ⟨h₁, h₂⟩
      · rfl
      · rw [hseen c h₂]
        simpa using h₁
    have hend : ∀ {q'}, Differs c q q' → (q'.cell c).isSome = true → ∀ e ∈ Clause.keywordClauses, q'.has e = seen.contains e := by
      intro q' hd hs e he
      refine (hd.has hhas ?_ he).trans (hseen e he)
      rcases hin with rfl | ⟨-, h₂⟩
      · rfl
      · have hu : c ≠ .unions := by rintro rfl; cases hc
        rw [has_eq_isSome_cell h₂ hu, hs]
    rcases covered_or_opens seen ts with hcov | ⟨w, t, us, e, rfl, hcov, hd, ht, he⟩
    · obtain ⟨D, q', h₁, h₂, h₃, h₄, h₅⟩ := parse_run [] hN hlen hc (hin.imp_right And.right) hts hb hseen hcov
      rw [List.append_nil] at h₁
      refine ⟨q', by rw [h₁, parseTokens_nil, h₂.query]; rfl, ?_⟩
      rw [chapters_of_covered hcov]
      refine ⟨h₅, List.forall_mem_nil _, fun e he _ ha ↦ h₃.cell e he ha, fun e he ↦ ?_, h₃.rest, h₃.aliases⟩
      rw [hend h₃ h₄ e he]
      simp
    · obtain ⟨hk, hkw⟩ := kind_of_clause? ht
      obtain ⟨hbw, hbu⟩ := balanced_of_clause hb hk hd
      obtain ⟨hwo, hto⟩ := List.forall_mem_append.1 hts
      obtain ⟨hto, huo⟩ := List.forall_mem_cons.1 hto
      have hu := ne_unions_of_isOrdinary hto.2 ht
      obtain ⟨hl, hea, -⟩ := isListed_of_keyword (mem_keywordClauses ht) hu
      simp only [List.length_append, List.length_cons] at hlen hn
      obtain ⟨D, q', h₁, h₂, h₃, h₄, h₅⟩ := parse_run (t :: us) hN (by omega) hc (hin.imp_right And.right) hwo hbw hseen hcov
      have hseen' := hend h₃ h₄
      have hnew : q'.has e = false := by
        rw [hseen' e (mem_keywordClauses ht)]
        simpa using he
      have hopened : ∀ k ∈ Clause.keywordClauses, (q'.assign [] e).has k = (e :: seen).contains k := by
        intro k hk
        rw [has_assign hl, hseen' k hk]
        by_cases hke : k = e <;> simp [hke]
      obtain ⟨Q, i₁, i₂⟩ := ih us.length (by omega) (by omega) (cell_assign hl [])
        (.inr ⟨List.mem_cons_self, mem_keywordClauses ht⟩) huo hbu hopened rfl
      refine ⟨Q, ?_, ?_⟩
      · rw [h₁, h₂.parse_heading hk hkw hl hnew, i₁]
      · rw [chapters_append hcov hd ht he]
        exact i₂.cons (hin.imp_right And.left) hca h₃ h₅ hseen' ht he hu

/-- A query of ordinary tokens with balanced parentheses is read, and its clauses hold what they hold by the
chapters of the query: the clauses are those whose keyword stands outside of all parentheses, each one but `FROM` has
the items of its tokens, and a parenthesis right after `FROM` encloses the subquery there. -/
theorem parse_agrees_chapters {s : Text} (h : tokens? s = .ok ts) (hb : Balanced ts) (ho : ∀ t ∈ ts, t.isOrdinary = true) :
    ∃ q, parse s = .ok q ∧
      (∀ c ∈ Clause.keywordClauses, q.has c = true ↔
        ∃ a t b, ts = a ++ t :: b ∧ depthAfter 0 a = 0 ∧ t.clause? = some c) ∧
      q.root = itemsOf .root (chapters [] ts).lead ∧
      (∀ t r c, (t, r) ∈ (chapters [] ts).parts → t.clause? = some c → c ≠ .source → q.items c = some (itemsOf c r)) ∧
      (∀ t r o us, (t, r) ∈ (chapters [] ts).parts → t.clause? = some .source → r.dropWhile isBlank = o :: us →
        o.isOpenParen = true → ∃ body after sub, closing? 0 us = some (body, after) ∧
          parse (textOf body) = .ok sub ∧ q.source = some (.subquery sub)) ∧
      (q.has (.slot .aliases) = true → ∃ sub, q.source = some (.subquery sub)) ∧
      q.calls = [] ∧ q.joins = [] ∧ q.unions = none := by
  obtain ⟨rfl, hl⟩ := tokens?_eq_ok_iff.1 h
  have hnone : ∀ e ∈ Clause.keywordClauses, Query.has {} e = [].contains e := by decide
  have hall : ∀ n, ∀ b : List Token, b.length < n → Balanced b → Ordinary b → ∃ r, parseTokens [] b {} = .ok r := by
    intro n
    induction n with
    | zero => nofun
    | succ n ih =>
      intro b hlen hb ho
      obtain ⟨r, hr, -⟩ := parse_chapters (N := n) ih (by omega) rfl (.inl rfl) ho hb hnone
      exact ⟨r, hr⟩
  obtain ⟨q, hq, hr⟩ := parse_chapters (hall ts.length) (Nat.le_refl _) rfl (.inl rfl)
    (fun t ht ↦ ⟨hl.lexical t ht, ho t ht⟩) hb hnone
  refine ⟨q, (parse_textOf hl).trans hq, fun c hc ↦ ?_, ?_, fun t r c hm ht hc ↦ ?_, fun t r o us hm ht hdw hop ↦ ?_, fun ha ↦ ?_, hr.rest⟩
  · rw [hr.has c hc]
    simp only [List.not_mem_nil, false_or]
    rw [exists_chapter_iff hb List.not_mem_nil, covered_iff]
    simp only [decide_eq_false_iff_not, not_forall, not_not]
    constructor
    · rintro ⟨a, t, b, rfl, hd, ht⟩
      rw [standing_of_kind (by simp [(kind_of_clause? ht).1])] at hd
      exact ⟨a, t, b, rfl, hd, ht⟩
    · rintro ⟨a, t, b, rfl, hd, ht⟩
      exact ⟨a, t, b, rfl, by rw [standing_of_kind (by simp [(kind_of_clause? ht).1]), hd], ht⟩
  · have := hr.lead
    rw [IsCellOf, if_neg nofun] at this
    simpa [cell] using this
  · have := hr.parts _ hm c ht
    rw [IsCellOf, if_neg hc] at this
    have hkw := mem_keywordClauses ht
    cases c with
    | slot s => simpa [cell, items] using this
    | source => exact absurd rfl hc
    | unions => cases this
    | root | call => simp [Clause.keywordClauses] at hkw
  · have := hr.parts _ hm .source ht
    rw [IsCellOf, if_pos rfl] at this
    obtain ⟨body, after, sub, h₁, h₂, h₃⟩ := this o us hdw hop
    obtain ⟨-, e, he, hus⟩ := depthRun_of_closing? h₁
    obtain ⟨x, y, hxy⟩ := chapters_infix _ hm
    have hbody : Lexed body := by
      obtain ⟨gs, hgs⟩ := List.dropWhile_suffix isBlank (l := r)
      rw [hdw, hus] at hgs
      have hts : ts = (x ++ gs ++ [o]) ++ (body ++ e :: (after ++ y)) := by simp [← hxy, ← hgs]
      rw [hts] at hl
      exact hl.suffix.left (.inl he)
    exact ⟨body, after, sub, h₁, (parse_textOf hbody).trans h₂, h₃⟩
  · exact (hr.aliases ha).resolve_left (by simp [Query.has, Slots.get])


theorem parse_agrees_chapters_nested : ∃ q,
    parse "SELECT f(a, b) AND c SELECT d FROM (SELECT 1) x WHERE a OR (b OR c), d" = .ok q ∧
      q.items (.slot .select) = some ["f(a, b) AND c SELECT d".toList] ∧
      q.items (.slot .condition) = some ["a".toList, "OR (b OR c)".toList, ",".toList, "d".toList] ∧
      (∃ sub, parse "SELECT 1" = .ok sub ∧ q.source = some (.subquery sub)) ∧ q.has (.slot .having) = false := by
  let g : Token := ⟨.blank, " "⟩
  let word : String → Token := fun w ↦ ⟨.identifier, w.toList⟩
  let key : String → Token := fun w ↦ ⟨.clause, w.toList⟩
  let select := [g, word "f", ⟨.opening, "("⟩, word "a", ⟨.punctuation, ","⟩, g, word "b", ⟨.closing, ")"⟩, g,
    ⟨.conjunction, "AND"⟩, g, word "c", g, key "SELECT", g, word "d", g]
  let source := [g, ⟨.opening, "("⟩, key "SELECT", g, ⟨.number, "1"⟩, ⟨.closing, ")"⟩, g, word "x", g]
  let condition := [g, word "a", g, ⟨.conjunction, "OR"⟩, g, ⟨.opening, "("⟩, word "b", g, ⟨.conjunction, "OR"⟩, g, word "c",
    ⟨.closing, ")"⟩, ⟨.punctuation, ","⟩, g, word "d"]
  have hts : tokens? "SELECT f(a, b) AND c SELECT d FROM (SELECT 1) x WHERE a OR (b OR c), d" =
      .ok ([] ++ key "SELECT" :: (select ++ key "FROM" :: (source ++ key "WHERE" :: condition))) :=
    tokens?_eq_ok_iff.2 ⟨by decide +kernel, by decide +kernel⟩
  have hlast : Covered (·.opens [.slot .condition, .source, .slot .select]) 0 condition := by decide
  have hch : chapters [] ([] ++ key "SELECT" :: (select ++ key "FROM" :: (source ++ key "WHERE" :: condition))) =
      ⟨[], [(key "SELECT", select), (key "FROM", source), (key "WHERE", condition)]⟩ := by
    rw [chapters_append (w := []) (t := key "SELECT") (c := .slot .select) covered_nil rfl (by decide)
        (by decide),
      chapters_append (w := select) (t := key "FROM") (c := .source) (by decide) (by decide) (by decide) (by decide),
      chapters_append (w := source) (t := key "WHERE") (c := .slot .condition) (by decide) (by decide) (by decide)
        (by decide), chapters_of_covered hlast]
  obtain ⟨q, hq, hhas, -, hitems, hsub, -⟩ := parse_agrees_chapters hts (by decide) (by decide)
  rw [hch] at hitems hsub
  refine ⟨q, hq, ?_, ?_, ?_, ?_⟩
  · rw [hitems (key "SELECT") select (.slot .select) (.head _) (by decide) (by decide)]
    decide
  · rw [hitems (key "WHERE") condition (.slot .condition) (.tail _ (.tail _ (.head _))) (by decide) (by decide)]
    decide
  · obtain ⟨body, after, sub, h₁, h₂, h₃⟩ := hsub (key "FROM") source _ _ (.tail _ (.head _)) (by decide) rfl rfl
    obtain ⟨rfl, -⟩ := Prod.mk.inj (Option.some.inj h₁)
    exact ⟨sub, h₂, h₃⟩
  · have hcov : Covered (fun u ↦ u.clause? = some (.slot .having)) 0
        ([] ++ key "SELECT" :: (select ++ key "FROM" :: (source ++ key "WHERE" :: condition))) := by decide
    refine Bool.eq_false_iff.2 fun h ↦ ?_
    obtain ⟨a, t, b, e, hd, ht⟩ := (hhas _ (by decide)).1 h
    have := covered_iff.1 hcov a t b e (by rw [standing_of_kind (by simp [(kind_of_clause? ht).1]), hd])
    simp [ht] at this

end QueryTemplate
