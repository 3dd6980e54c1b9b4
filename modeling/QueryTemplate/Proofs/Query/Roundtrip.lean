import QueryTemplate.Proofs.Query.Statement
import QueryTemplate.Proofs.Query.Unions
namespace QueryTemplate

open Token Fragment Grammar

variable {a b ts : List Token} {t : Token} {xs : List Filling} {q : Query} {p : Token × List Token} {parts : List (Token × List Token)}

/-- A clause of a statement whose clauses are in order: what is read as a query in it is printed so that
it can be read again. -/
structure RegularPart (p : Token × List Token) : Prop where
  heading : p.1.kind = .clause
  balanced : Balanced p.2
  covered : Covered isHeading 0 p.2
  order : p.1.keyword ∈ clauseOrder
  comma : NoComma p.2
  select : p.1.keyword = "select".toList → p.2.dropWhile isBlank ≠ []
  prewhere : p.1.keyword = "prewhere".toList → Covered isComma 0 p.2
  aliases : p.1.keyword = "from".toList → ∀ x ∈ groupAhead p.2, Covered isComma 0 x.2
  levels : ∀ b ∈ partLevels p, Placed 0 b → ∃ q, Reprints b q

/-- The bodies of `IN` in a clause. -/
theorem exists_bodies {source : Bool} (h : Placed 0 ts)
    (hl : ∀ b ∈ innerLevels source 0 [] ts, Placed 0 b → ∃ q, Reprints b q) :
    ∀ b ∈ innerLevels source 0 [] ts, ∃ q b', Body b q b' := by
  intro b hb
  have hp := h.of_mem_innerLevels hb
  obtain ⟨q, hq⟩ := hl b hb hp
  exact ⟨q, hq.body hp.balanced⟩

/-- A parenthesis just after `FROM` encloses a subquery. -/
def ReadsSubquery (p : Token × List Token) : Prop := p.1.keyword = "from".toList ∧ (groupAhead p.2).isSome = true

namespace RegularPart

variable {c : Clause}

/-- The clause that the keyword opens. -/
theorem exists_clause (hp : RegularPart p) : ∃ c ∈ Clause.printOrder, Clause.ofKeyword? p.1.keyword = some c ∧ c.name = p.1.keyword := by
  have hclause : ∀ k ∈ clauseOrder, ∃ c ∈ Clause.printOrder, Clause.ofKeyword? k = some c ∧ c.name = k := by decide
  exact hclause _ hp.order

theorem placed (hp : RegularPart p) (h : Placed 0 (p.1 :: p.2)) : Placed 0 p.2 :=
  h.right (a := [p.1]) (by simp [depthRun, isOpenParen, isCloseParen, hp.heading])

/-- The tokens of a clause that is a list. -/
theorem pending (hp : RegularPart p) (h : Placed 0 (p.1 :: p.2)) (hc : c ∈ Clause.printOrder) (hname : c.name = p.1.keyword)
    (hg : c = .source → groupAhead p.2 = none) : Pending c false {} none 0 p.2 := by
  have hkeys : ∀ c ∈ Clause.printOrder, (c = .slot .prewhere → c.name = "prewhere".toList) ∧ (c = .source ↔ c.name = "from".toList) ∧
      c ≠ .slot .aliases := by decide
  obtain ⟨hpre, hfrom, hal⟩ := hkeys c hc
  have hts := hp.placed h
  have hlev : partLevels p = innerLevels (c = .source) 0 [] p.2 := by
    rw [partLevels, ← hname]
    by_cases hs : c = .source
    · rw [if_pos (hfrom.1 hs), hg hs]
      simp [hs]
    · rw [if_neg (mt hfrom.2 hs)]
      simp [hs]
  refine hts.pending hp.covered (fun e ↦ ?_) (fun e o ho ↦ ⟨?_, hp.comma o ho⟩) (exists_bodies hts (hlev ▸ hp.levels))
  · exact hp.prewhere (hname ▸ hpre (e.resolve_right hal))
  · exact Pending.noGroup_of_groupAhead (hg e) hts.balanced o ho

/-- A subquery in `FROM` and the tokens after it. -/
theorem exists_subquery (hp : RegularPart p) (h : Placed 0 (p.1 :: p.2)) (hr : ReadsSubquery p) :
    ∃ b us aliases cells, groupAhead p.2 = some (b, us) ∧ b ∈ partLevels p ∧ Placed 0 b ∧ Placed 0 us ∧
      Listed (.slot .aliases) false us aliases 0 cells ∧ cells.length ≤ 1 ∧ ∀ r, Reprints b r → Prints (p.1 :: p.2) [.subquery r aliases] := by
  obtain ⟨t, ts⟩ := p
  obtain ⟨hkey, hsome⟩ := hr
  obtain ⟨⟨b, us⟩, hg⟩ := Option.isSome_iff_exists.1 hsome
  have hw : Clause.ofKeyword? t.keyword = some .source := by
    rw [show t.keyword = "from".toList from hkey]
    decide
  obtain ⟨gs, o, e, rfl, hgs, ho, he, hbal⟩ := groupAhead_eq_some hg
  obtain ⟨hb, hus⟩ := (hp.placed h).group (depthRun_blanks hgs) ho he hbal
  have hlev : partLevels (t, gs ++ o :: (b ++ e :: us)) = b :: innerLevels false 0 [] us := by
    rw [partLevels, if_pos hkey, hg]
  have hlevels := List.forall_mem_cons.1 (hlev ▸ hp.levels)
  have hcov : Covered isHeading 0 us := by
    have := (covered_append.1 hp.covered).2
    rw [depthAfter_of_depthRun (depthRun_blanks hgs)] at this
    exact covered_group ho he hbal this
  have hpend : Pending (.slot .aliases) false {} none 0 us :=
    hus.pending hcov (fun _ ↦ hp.aliases hkey _ hg) nofun (exists_bodies hus hlevels.2)
  obtain ⟨aliases, cells, hlist, hle⟩ := exists_aliases hpend
  exact ⟨b, us, aliases, cells, hg, hlev ▸ List.mem_cons_self, hb, hus, hlist, hle,
    fun r hr ↦ hlist.prints_subquery hle hw hp.heading hgs ho he hbal hus.balanced h hr⟩

end RegularPart

theorem exists_part (hp : RegularPart p) (h : Placed 0 (p.1 :: p.2)) :
    ∃ x, Prints (p.1 :: p.2) [x] ∧ x.clause ∈ Clause.printOrder ∧ x.clause.name = p.1.keyword ∧ x ≠ .items (.slot .select) [] ∧
      ((∃ c items, x = .items c items) ∨ ReadsSubquery p) := by
  obtain ⟨c, hc, hw, hname⟩ := hp.exists_clause
  have hsource : c = .source ↔ p.1.keyword = "from".toList := by
    have hkeys : ∀ c ∈ Clause.printOrder, c = .source ↔ c.name = "from".toList := by decide
    rw [hkeys c hc, hname]
  by_cases hr : ReadsSubquery p
  · obtain ⟨b, us, aliases, cells, -, hmem, hb, -, -, -, hprints⟩ := hp.exists_subquery h hr
    obtain ⟨r, hr'⟩ := hp.levels b hmem hb
    obtain rfl := hsource.2 hr.1
    exact ⟨.subquery r aliases, hprints r hr', hc, hname, nofun, .inr hr⟩
  · have hpend := hp.pending h hc hname fun e ↦ by
      cases hg : groupAhead p.2 with
      | none => rfl
      | some x => exact absurd ⟨hsource.1 e, by rw [hg]; rfl⟩ hr
    obtain ⟨items, hprints, hne⟩ := prints_items hw hp.heading (h.tokens p.1 List.mem_cons_self).1 hpend hp.comma
    refine ⟨.items c items, hprints, hc, hname, fun e ↦ ?_, .inl ⟨_, _, rfl⟩⟩
    obtain ⟨rfl, rfl⟩ := Filling.items.inj e
    have hsel : (Clause.slot .select).name = "select".toList := by decide
    exact hne (hp.select (hname ▸ hsel)) rfl

/-- The tokens of some clauses. -/
def clauseTokens (parts : List (Token × List Token)) : List Token := parts.flatMap fun p ↦ p.1 :: p.2

theorem exists_prints (hne : parts ≠ []) (hr : ∀ p ∈ parts, RegularPart p) (h : Placed 0 (clauseTokens parts)) :
    ∃ xs, Prints (clauseTokens parts) xs ∧ (∀ x ∈ xs, x.clause ∈ Clause.printOrder) ∧
      xs.map (·.clause.name) = parts.map (·.1.keyword) ∧ .items (.slot .select) [] ∉ xs ∧
      ∀ x ∈ xs, (∃ c items, x = .items c items) ∨ ∃ p ∈ parts, ReadsSubquery p := by
  induction parts with
  | nil => exact absurd rfl hne
  | cons p parts ih =>
    obtain ⟨hp, hparts⟩ := List.forall_mem_cons.1 hr
    cases parts with
    | nil =>
      rw [clauseTokens, List.flatMap_singleton] at h ⊢
      obtain ⟨x, hx, hc, hn, hs, hi⟩ := exists_part hp h
      exact ⟨[x], hx, by simpa using hc, by simp [hn], by simpa using hs.symm, by simpa using hi⟩
    | cons p' parts =>
      have hsplit : clauseTokens (p :: p' :: parts) = (p.1 :: p.2) ++ p'.1 :: (p'.2 ++ clauseTokens parts) := by
        simp [clauseTokens]
      have hrest : clauseTokens (p' :: parts) = p'.1 :: (p'.2 ++ clauseTokens parts) := by simp [clauseTokens]
      have hd : depthRun 0 (p.1 :: p.2) = some 0 := by
        have : depthRun 0 p.2 = some 0 := hp.balanced
        simpa [depthRun, isOpenParen, isCloseParen, hp.heading] using this
      rw [hsplit] at h ⊢
      have hk := (hparts p' List.mem_cons_self).heading
      have ht := (h.tokens p'.1 (by simp)).1
      obtain ⟨x, hx, hc, hn, hs, hi⟩ := exists_part hp (h.left hd fun us ↦ (Headed.cons hk ht us).ahead)
      obtain ⟨xs, hxs, hcs, hns, hss, his⟩ := ih (by simp) hparts (hrest ▸ h.right hd)
      refine ⟨x :: xs, hrest ▸ hx.append hxs, List.forall_mem_cons.2 ⟨hc, hcs⟩, by simp [hn, hns], ?_, ?_⟩
      · rw [List.mem_cons, not_or]
        exact ⟨hs.symm, hss⟩
      · refine List.forall_mem_cons.2 ⟨hi.imp_right fun h ↦ ⟨p, List.mem_cons_self, h⟩, fun y hy ↦ (his y hy).imp_right ?_⟩
        rintro ⟨u, hu, h⟩
        exact ⟨u, List.mem_cons_of_mem _ hu, h⟩

theorem noGroup_blanks {gs us : List Token} (hg : ∀ g ∈ gs, g.isBlank = true) (h : NoGroup us) : NoGroup (gs ++ us) := by
  induction gs with
  | nil => exact h
  | cons g gs ih =>
    obtain ⟨hg, hgs⟩ := List.forall_mem_cons.1 hg
    exact (noGroup_blank hg _).2 (ih hgs)

/-- Clauses put into a query that reading ends in are what is read. -/
theorem Fills.parse {d : Draft} {gs : List Token} (h : Fills ts xs) (hd : d.Ends q) (ha : q.Accepts xs)
    (hg : ∀ g ∈ gs, g.isBlank = true) : parseTokens [] (ts ++ gs) d = .ok (q.puts xs) := by
  have hno : NoGroup gs := by simpa using noGroup_blanks hg noGroup_nil
  obtain ⟨d', hd', he⟩ := h hd ha hno
  rw [hd', ← List.append_nil gs, parse_blanks hg, parseTokens_nil, he.query]
  rfl

theorem accepts_of_sublist (h : (xs.map Filling.clause).Sublist Clause.printOrder) : Query.Accepts {} xs := by
  have hc : ∀ x ∈ xs, x.clause ∈ Clause.printOrder := fun x hx ↦ h.subset (List.mem_map_of_mem hx)
  have hnone : ∀ c ∈ Clause.printOrder, Query.has {} c = false := by decide
  exact ⟨hc, h.nodup (by decide), fun x hx ↦ hnone _ (hc x hx), fun _ ↦ rfl⟩

/-- Clauses in the order of their keywords, once each. -/
theorem accepts_of_order (hc : ∀ x ∈ xs, x.clause ∈ Clause.printOrder) (hs : (xs.map (·.clause.name)).Sublist clauseOrder) :
    Query.Accepts {} xs ∧ (xs.map Filling.clause).Sublist Clause.printOrder := by
  have horder : clauseOrder = Clause.printOrder.map Clause.name := by decide
  have hinj : ∀ c ∈ Clause.printOrder, Clause.ofKeyword? c.name = some c := by decide
  have hmap : ∀ cs : List Clause, (∀ c ∈ cs, c ∈ Clause.printOrder) → (cs.map Clause.name).map Clause.ofKeyword? = cs.map some := by
    intro cs hcs
    rw [List.map_map]
    exact List.map_congr_left fun c h ↦ hinj c (hcs c h)
  have hkeys : xs.map (·.clause.name) = (xs.map Filling.clause).map Clause.name := by simp
  have hsub := hs.map Clause.ofKeyword?
  rw [horder, hmap _ fun _ h ↦ h, hkeys, hmap _ (List.forall_mem_map.2 hc)] at hsub
  have hsub : (xs.map Filling.clause).Sublist Clause.printOrder := by
    have := hsub.filterMap id
    simpa [List.filterMap_map] using this
  exact ⟨accepts_of_sublist hsub, hsub⟩

/-- A statement without `UNION ALL`. -/
theorem exists_statement {lead : List Token} (hs : sections isHeading 0 ts = ⟨lead, parts⟩) (hne : parts ≠ [])
    (hl : ∀ t ∈ lead, t.isBlank = true) (ho : (parts.map (·.1.keyword)).Sublist clauseOrder)
    (hp : ∀ p ∈ parts, RegularPart p) (h : Placed 0 ts) :
    ∃ q, Reprints ts q ∧ q.unions = none ∧ ((∀ p ∈ parts, p.1.keyword ≠ "format".toList) → q.slots.format = none) := by
  have htokens : ts = lead ++ clauseTokens parts := by
    have := tokens_sections isHeading 0 ts
    rw [hs] at this
    exact this.symm
  rw [htokens] at h ⊢
  obtain ⟨xs, hxs, hclause, hnames, hselect, -⟩ := exists_prints hne hp (h.blanks hl)
  rw [← hnames] at ho
  obtain ⟨haccepts, hsub⟩ := accepts_of_order hclause ho
  have hxne : xs ≠ [] := by
    rintro rfl
    exact hne (List.map_eq_nil_iff.1 hnames.symm)
  refine ⟨Query.puts {} xs, ⟨?_, Query.clausal_puts haccepts hselect hxne, fun indent hi ↦ ?_⟩, (Query.puts_rest {} xs).2.2.2,
    fun hf ↦ ?_⟩
  · rw [parse_blanks hl, ← List.append_nil (clauseTokens parts)]
    exact Fills.parse hxs.fills Draft.ends_empty haccepts nofun
  · obtain ⟨ps, htext, hhead, hfills, hrelaid⟩ := hxs.printed indent hi
    refine ⟨ps, ?_, hhead, fun gs hg ↦ Fills.parse hfills Draft.ends_empty haccepts hg, fun {z vs us} he ↦ ?_⟩
    · rw [Query.printAt, Query.lines_puts haccepts hselect hsub, htext]
    · rw [List.append_assoc]
      exact (hrelaid he).blanks hl
  · have hhas := Query.has_puts (q := {}) hclause (show Clause.slot .format ≠ .slot .aliases by decide)
    have hnot : xs.any (·.clause = .slot .format) = false := by
      rw [List.any_eq_false]
      intro x hx e
      have hx' : x.clause.name ∈ parts.map (·.1.keyword) := hnames ▸ List.mem_map_of_mem (f := (·.clause.name)) hx
      obtain ⟨p, hp, hpk⟩ := List.mem_map.1 hx'
      rw [show x.clause = .slot .format by simpa using e] at hpk
      exact hf p hp hpk
    rw [hnot] at hhas
    simpa [Query.has, Slots.get] using hhas

/-- The text between statements of a query. -/
def betweenStatements (indent : Text) : Text := '\n' :: indent ++ "UNION ALL\n".toList

/-- Statements between `UNION ALL` are read as the queries `qs`, and so are the tokens by which these are
printed. -/
structure ReprintsAll (ts : List Token) (qs : List Query) : Prop where
  parse : (splitOutside isUnionAll ts).map (fun r ↦ parseTokens [] r {}) = qs.map .ok
  printed : ∀ indent, IsIndent indent → ∃ ps,
    Text.join (betweenStatements indent) (qs.map (·.printAt indent)) = indent ++ textOf ps ∧ Headed ps ∧
    (∀ gs, (∀ g ∈ gs, g.isBlank = true) → (splitOutside isUnionAll (ps ++ gs)).map (fun r ↦ parseTokens [] r {}) = qs.map .ok) ∧
    ∀ {z vs us}, Ending z vs us → Relaid z (ts ++ vs) (ps ++ us)

theorem covered_blanks {f : Token → Bool} (hf : ∀ t, t.isBlank = true → f t = false) {gs : List Token}
    (hg : ∀ g ∈ gs, g.isBlank = true) : Covered f 0 gs := covered_of_forall fun g h ↦ hf g (hg g h)

theorem isUnionAll_of_isBlank (h : t.isBlank = true) : isUnionAll t = false := by
  have hk : t.kind = .blank := by simpa [Token.isBlank] using h
  simp [isUnionAll, isClause, hk]

/-- What a statement is printed by is balanced and one statement as well. -/
theorem covered_printed {ps : List Token} (hb : Balanced ts) (hc : Covered isUnionAll 0 ts)
    (h : ∀ {z vs us}, Ending z vs us → Relaid z (ts ++ vs) (ps ++ us)) : Balanced ps ∧ Covered isUnionAll 0 ps := by
  have hrel := h (.nil (z := []) rfl)
  rw [List.append_nil, List.append_nil] at hrel
  refine ⟨hrel.balanced hb, hrel.covered (fun t ↦ isUnionAll_of_isBlank) (fun t u hk hw ↦ ?_) 0 hc⟩
  simp only [isUnionAll, isClause, hk, hw]

/-- What stands on both sides of `UNION ALL`. -/
theorem Placed.union (h : Placed 0 (a ++ t :: b)) (ht : isUnionAll t = true) (ha : Balanced a) :
    Placed 0 a ∧ Placed 0 b ∧ t.kind = .clause ∧ Lexical t := by
  obtain ⟨ho, hcl⟩ := kind_of_isUnionAll t ht
  have hk : t.kind = .clause := by
    simp only [isUnionAll, isClause, Bool.and_eq_true, decide_eq_true_eq] at ht
    exact ht.1
  have hl := (h.tokens t (by simp)).1
  have htail := (h.right ha).tail
  rw [after_standing ho hcl] at htail
  exact ⟨h.left ha fun us ↦ (Headed.cons hk hl us).ahead, htail, hk, hl⟩

theorem Placed.of_mem_splitOutside (h : Placed 0 ts) : ∀ r ∈ splitOutside isUnionAll ts, Placed 0 r := by
  induction hn : ts.length using Nat.strongRecOn generalizing ts with
  | ind n ih =>
    rcases splitOutside_cases kind_of_isUnionAll h.balanced with hc | ⟨a, t, b, rfl, ht, -, ha, -, hs⟩
    · rw [splitOutside_of_covered hc]
      exact List.forall_mem_singleton.2 h
    · rw [List.length_append, List.length_cons] at hn
      obtain ⟨hpa, hpb, -, -⟩ := h.union ht ha
      rw [hs]
      exact List.forall_mem_cons.2 ⟨hpa, ih b.length (by omega) hpb rfl⟩

/-- Blanks before the first statement are skipped. -/
theorem parse_runs_blank (ht : t.isBlank = true) (ts : List Token) :
    (splitOutside isUnionAll (t :: ts)).map (fun r ↦ parseTokens [] r {}) =
      (splitOutside isUnionAll ts).map fun r ↦ parseTokens [] r {} := by
  have hk : t.kind = .blank := by simpa [Token.isBlank] using ht
  have hcov : Covered isUnionAll 0 [t] := covered_of_forall (by simpa using isUnionAll_of_isBlank ht)
  have hd : depthAfter 0 [t] = 0 := by simp [after, standing, isOpenParen, isCloseParen, hk]
  obtain ⟨r, rs, hrs⟩ := List.exists_cons_of_ne_nil (splitOutside_ne_nil isUnionAll ts)
  rw [← List.singleton_append, splitOutside_append hcov hd, hrs]
  simp [parse_blank ht]

theorem exists_reprintsAll {rs : List (List Token)} (h : Placed 0 ts) (hs : splitOutside isUnionAll ts = a :: rs)
    (hq : Reprints a q) (hr : ∀ r ∈ rs, ∃ q, Reprints r q) : ∃ qs, ReprintsAll ts (q :: qs) ∧ (rs = [] ↔ qs = []) := by
  induction rs generalizing ts a q with
  | nil =>
    rcases splitOutside_cases kind_of_isUnionAll h.balanced with hc | ⟨a', t, b, rfl, ht, -, -, -, hs'⟩
    · rw [splitOutside_of_covered hc] at hs
      obtain rfl := (List.cons.inj hs).1
      refine ⟨[], ⟨?_, fun indent hi ↦ ?_⟩, by simp⟩
      · rw [splitOutside_of_covered hc, List.map_singleton, hq.parse]
        rfl
      · obtain ⟨ps, htext, hhead, hparse, hrelaid⟩ := hq.printed indent hi
        obtain ⟨hb, hcov⟩ := covered_printed h.balanced hc hrelaid
        refine ⟨ps, htext, hhead, fun gs hg ↦ ?_, hrelaid⟩
        have hpg : Covered isUnionAll 0 (ps ++ gs) := by
          refine covered_append.2 ⟨hcov, ?_⟩
          rw [depthAfter_of_depthRun hb]
          exact covered_blanks (fun t ↦ isUnionAll_of_isBlank) hg
        rw [splitOutside_of_covered hpg, List.map_singleton, hparse gs hg]
        rfl
    · rw [hs'] at hs
      exact absurd (List.cons.inj hs).2 (splitOutside_ne_nil isUnionAll b)
  | cons r rs ih =>
    rcases splitOutside_cases kind_of_isUnionAll h.balanced with hc | ⟨a', t, b, rfl, ht, hc, ha, hb, hs'⟩
    · rw [splitOutside_of_covered hc] at hs
      cases (List.cons.inj hs).2
    · rw [hs'] at hs
      obtain ⟨rfl, hrest⟩ := List.cons.inj hs
      obtain ⟨-, hpb, hk, hl⟩ := h.union ht ha
      obtain ⟨⟨q', hq'⟩, hr⟩ := List.forall_mem_cons.1 hr
      obtain ⟨qs, hqs, -⟩ := ih hpb hrest hq' hr
      obtain ⟨htl, -, hkey⟩ := title_spec .unions (by decide)
      have hunion : isUnionAll Clause.unions.title = true := by decide +kernel
      refine ⟨q' :: qs, ⟨?_, fun indent hi ↦ ?_⟩, by simp⟩
      · rw [hs', List.map_cons, hq.parse, hqs.parse]
        rfl
      · obtain ⟨ps, htext, hhead, hparse, hrelaid⟩ := hq.printed indent hi
        obtain ⟨us, utext, uhead, uparse, urelaid⟩ := hqs.printed indent hi
        have hgap := hi.isGap
        refine ⟨ps ++ newLine indent :: Clause.unions.title :: newLine indent :: us, ?_, hhead.append _, fun gs hg ↦ ?_, fun {z vs ws} he ↦ ?_⟩
        · have htitle : Clause.unions.title.text = "UNION ALL".toList := by decide
          rw [List.map_cons] at utext
          rw [List.map_cons, List.map_cons, Text.join, utext, htext]
          simp [newLine, htitle, betweenStatements]
        · obtain ⟨hb, hcov⟩ := covered_printed ha hc hrelaid
          have hcov' : Covered isUnionAll 0 (ps ++ [newLine indent]) := by
            refine covered_append.2 ⟨hcov, ?_⟩
            rw [depthAfter_of_depthRun hb]
            exact covered_blanks (fun t ↦ isUnionAll_of_isBlank) (by simp [hgap.isBlank])
          have hb' : Balanced (ps ++ [newLine indent]) := by
            rw [Balanced, depthRun_append, hb]
            rfl
          have hsplit : (ps ++ newLine indent :: Clause.unions.title :: newLine indent :: us) ++ gs =
              (ps ++ [newLine indent]) ++ Clause.unions.title :: newLine indent :: (us ++ gs) := by simp
          rw [hsplit, splitOutside_heading kind_of_isUnionAll hcov' hb' hunion, List.map_cons, hparse _ (by simp [hgap.isBlank]),
            parse_runs_blank hgap.isBlank, uparse gs hg]
          rfl
        · have hbranch := (urelaid he).gap hgap (uhead.append ws).head
          have hne : t.keyword ≠ "with".toList := by
            simp only [isUnionAll, isClause, Bool.and_eq_true, decide_eq_true_eq] at ht
            rw [ht.2]
            decide
          have hkey' : Clause.unions.title.keyword = t.keyword := by
            simp only [isUnionAll, isClause, Bool.and_eq_true, decide_eq_true_eq] at ht
            rw [hkey, ht.2]
            rfl
          have htitle := Relaid.rewrite (Token.isTitle_of_clause hk) hk.symm hkey' htl (sealed_gap hgap _).1 (.inl ⟨hk, hne⟩) hbranch
          have hend := Headed.ending hgap (.cons hk hl _) (.cons rfl ⟨_, htl⟩ _) htitle
          simpa using hrelaid hend

/-- The lines of a query and those of the statements after `UNION ALL`. -/
theorem join_unionLines {indent : Text} (hne : q.lines indent ≠ []) (qs : List Query) :
    Text.join ['\n'] (q.lines indent ++ Query.lines.unionLines indent qs) =
      Text.join (betweenStatements indent) ((q :: qs).map (·.printAt indent)) := by
  have hbranches : (Query.lines.unionLines indent qs).flatMap (['\n'] ++ ·) =
      (qs.map (·.printAt indent)).flatMap (betweenStatements indent ++ ·) := by
    induction qs with
    | nil => rfl
    | cons r qs ih =>
      rw [Query.lines.unionLines, List.flatMap_cons, List.flatMap_cons, ih, List.map_cons, List.flatMap_cons]
      simp [betweenStatements, Query.printAt]
  obtain ⟨x, ls, hx⟩ := List.exists_cons_of_ne_nil hne
  rw [List.map_cons, join_cons, ← hbranches, Query.printAt, hx, List.cons_append, join_cons, join_cons, List.flatMap_append,
    List.append_assoc]

theorem splitOutside_eq_branches (ts : List Token) : splitOutside isUnionAll ts = ownTokens ts :: unionBranches ts := by
  rw [ownTokens, unionBranches]
  cases h : cutOutside isUnionAll ts with
  | none =>
    refine splitOutside_of_covered ?_
    rw [Covered]
    rw [cutOutside] at h
    split at h
    · rename_i e
      rw [e]
    · cases h
  | some x =>
    obtain ⟨a, t, b⟩ := x
    obtain ⟨rfl, hc, hd, ht⟩ := cutOutside_eq_some_iff.1 h
    obtain ⟨ho, hcl⟩ := kind_of_isUnionAll t ht
    have hd : depthAfter 0 a = 0 := by simpa [standing, isCloseParen, hcl] using hd
    rw [splitOutside_append hc hd, splitOutside_cons_heading (by simp [standing, isCloseParen, hcl]) (by simp [after, isOpenParen, ho]) ht]
    simp

/-- The clauses of a statement whose clauses are in order. -/
theorem RegularClauses.regularPart (hc : RegularClauses ts) (hb : Balanced (ownTokens ts))
    (hl : ∀ b ∈ subLevels ts, Placed 0 b → ∃ q, Reprints b q) : ∀ p ∈ clauseParts ts, RegularPart p := by
  intro p hpm
  have hk : isHeading p.1 = true := heading_of_mem_parts _ p hpm
  have hkind : ∀ t, isHeading t = true → t.kind ≠ .opening ∧ t.kind ≠ .closing := by
    intro t ht
    simp only [isHeading, decide_eq_true_eq] at ht
    simp [ht]
  obtain ⟨hbal, hcov⟩ := balanced_of_mem_splitOutside hkind hb p.2 (List.mem_cons_of_mem _ (List.mem_map_of_mem hpm))
  exact ⟨by simpa [isHeading] using hk, hbal, hcov, hc.order.mem (List.mem_map_of_mem (f := (·.1.keyword)) hpm), hc.comma p hpm,
    hc.select p hpm, hc.prewhere p hpm, hc.aliases p hpm,
    fun b hb ↦ hl b (List.mem_append_left _ (List.mem_flatMap.2 ⟨p, hpm, hb⟩))⟩

theorem RegularClauses.parts_ne_nil (hc : RegularClauses ts) : clauseParts ts ≠ [] := by
  obtain ⟨p, hp, -⟩ := hc.first
  intro e
  rw [e] at hp
  cases hp

/-- A statement whose clauses are in order is printed so that it can be read again, and so are those in it. -/
theorem RegularLevel.reprints (h : RegularLevel ts) (hp : Placed 0 ts) : ∃ q, Reprints ts q := by
  induction h with
  | @mk ts hc hl ih =>
    have hsplit := splitOutside_eq_branches ts
    obtain ⟨hown, hbranches⟩ := List.forall_mem_cons.1 (hsplit ▸ hp.of_mem_splitOutside)
    have hparts := hc.regularPart hown.balanced ih
    obtain ⟨q₀, hq₀, hnone, hformat⟩ := exists_statement
      (show sections isHeading 0 (ownTokens ts) = ⟨_, clauseParts ts⟩ from rfl) hc.parts_ne_nil hc.lead hc.order hparts hown
    obtain ⟨qs, hqs, hiff⟩ := exists_reprintsAll hp hsplit hq₀ fun r hr ↦ ih r (List.mem_append_right _ hr) (hbranches r hr)
    have hjoin : ∀ t ∈ ts, t.kind ≠ .join := fun t ht ↦ (hp.tokens t ht).2.2.2.1
    refine ⟨{ q₀ with unions := if qs = [] then none else some qs }, ?_, hq₀.clausal.with_unions _, fun indent hi ↦ ?_⟩
    · exact (parseTokens_statements hp.balanced (inStatement_of_mem_splitOutside hp.balanced hjoin) _).2 ⟨q₀, qs, hqs.parse, rfl⟩
    · obtain ⟨ps, htext, hhead, hparse, hrelaid⟩ := hqs.printed indent hi
      have hrel := hrelaid (.nil (z := []) rfl)
      rw [List.append_nil, List.append_nil] at hrel
      have hunions : (if qs = [] then none else some qs) = none ∨ q₀.slots.format = none := by
        rcases hc.union with e | e
        · exact .inl (if_pos (hiff.1 e))
        · exact .inr (hformat e)
      refine ⟨ps, ?_, hhead, fun gs hg ↦ ?_, hrelaid⟩
      · have hlines : q₀.lines indent ≠ [] := by
          obtain ⟨us, utext, uhead, -⟩ := hq₀.printed indent hi
          intro e
          rw [Query.printAt, e] at utext
          exact uhead.textOf_ne_nil (List.append_eq_nil_iff.1 utext.symm).2
        have hbranch : Query.branchLines indent { q₀ with unions := if qs = [] then none else some qs } = Query.lines.unionLines indent qs := by
          rw [Query.branchLines]
          by_cases e : qs = []
          · simp [e, Query.lines.unionLines]
          · simp [e]
        rw [Query.printAt, Query.lines_with_unions hq₀.clausal hnone hunions, hbranch, join_unionLines hlines, htext]
      · have hbal : Balanced (ps ++ gs) := by
          rw [Balanced, depthRun_append, hrel.balanced hp.balanced, Option.bind_some, depthRun_blanks hg]
        have hkinds : ∀ t ∈ ps ++ gs, t.kind ≠ .join := by
          refine List.forall_mem_append.2 ⟨hrel.kinds (P := (· ≠ .join)) (by decide) hjoin, fun g h ↦ ?_⟩
          have hk : g.kind = .blank := by simpa [Token.isBlank] using hg g h
          simp [hk]
        exact (parseTokens_statements hbal (inStatement_of_mem_splitOutside hbal hkinds) _).2 ⟨q₀, qs, hparse gs hg, rfl⟩

theorem Regular.placed (h : Regular ts) (hl : Lexed ts) : Placed 0 ts :=
  ⟨h.balanced, fun t ht ↦ ⟨hl.lexical t ht, h.plain t ht⟩, ⟨[], rfl, nofun, by rwa [List.append_nil]⟩, h.apart⟩

/-- A query is read from its printed text as from its own. -/
theorem parse_print {s : Text} (hs : tokens? s = .ok ts) (h : Regular ts) : ∃ q, parse s = .ok q ∧ parse q.print = .ok q := by
  obtain ⟨rfl, hl⟩ := tokens?_eq_ok_iff.1 hs
  obtain ⟨q, hq⟩ := h.level.reprints (h.placed hl)
  obtain ⟨ps, htext, -, hparse, hrelaid⟩ := hq.printed [] nofun
  have hrel := hrelaid (.nil (z := []) rfl)
  rw [List.append_nil, List.append_nil] at hrel
  refine ⟨q, (parse_textOf hl).trans hq.parse, ?_⟩
  rw [Query.print, htext, List.nil_append, parse_textOf (hrel.lexed hl)]
  simpa using hparse [] nofun

/-- The tokens of a query with two others in it. -/
def nestedTokens : List Token :=
  [⟨.clause, "SELECT"⟩, ⟨.blank, " "⟩, ⟨.identifier, "a"⟩, ⟨.blank, " "⟩, ⟨.clause, "FROM"⟩, ⟨.blank, " "⟩, ⟨.opening, "("⟩, ⟨.clause, "select"⟩,
    ⟨.blank, " "⟩, ⟨.operator, "*"⟩, ⟨.blank, " "⟩, ⟨.clause, "from"⟩, ⟨.blank, " "⟩, ⟨.identifier, "t"⟩, ⟨.closing, ")"⟩, ⟨.blank, " "⟩,
    ⟨.clause, "WHERE"⟩, ⟨.blank, " "⟩, ⟨.identifier, "a"⟩, ⟨.blank, " "⟩, ⟨.membership, "IN"⟩, ⟨.blank, " "⟩, ⟨.opening, "("⟩, ⟨.clause, "SELECT"⟩,
    ⟨.blank, " "⟩, ⟨.number, "1"⟩, ⟨.closing, ")"⟩]

theorem parse_print_nested :
    tokens? "SELECT a FROM (select * from t) WHERE a IN (SELECT 1)" = .ok nestedTokens ∧ Regular nestedTokens ∧
      ∃ q, parse "SELECT a FROM (select * from t) WHERE a IN (SELECT 1)" = .ok q ∧ parse q.print = .ok q := by
  have hs : tokens? "SELECT a FROM (select * from t) WHERE a IN (SELECT 1)" = .ok nestedTokens :=
    tokens?_eq_ok_iff.2 ⟨by decide, by decide +kernel⟩
  have hl : subLevels nestedTokens = [[⟨.clause, "select"⟩, ⟨.blank, " "⟩, ⟨.operator, "*"⟩, ⟨.blank, " "⟩, ⟨.clause, "from"⟩, ⟨.blank, " "⟩,
      ⟨.identifier, "t"⟩], [⟨.clause, "SELECT"⟩, ⟨.blank, " "⟩, ⟨.number, "1"⟩]] := by decide +kernel
  have hleaf : ∀ b ∈ subLevels nestedTokens, RegularClauses b ∧ subLevels b = [] := by
    rw [hl]
    decide +kernel
  have h : Regular nestedTokens := by
    refine ⟨by decide, by decide, by decide, ⟨by decide +kernel, fun b hb ↦ ?_⟩⟩
    obtain ⟨hc, hn⟩ := hleaf b hb
    exact ⟨hc, by simp [hn]⟩
  exact ⟨hs, h, parse_print hs h⟩

end QueryTemplate
