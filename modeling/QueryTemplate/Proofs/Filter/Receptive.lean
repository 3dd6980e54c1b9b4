import QueryTemplate.Proofs.Filter.Filtered
namespace QueryTemplate

open Token Fragment Grammar

variable {a b ts : List Token} {c : Clause} {cs : List (List Token)} {xs ys : List Filling}
    {x : Filling} {q r : Query} {items : List Text}
  {p : Token × List Token} {parts ps qs : List (Token × List Token)} {P : Token → Prop}

/-- What is read as a query in a clause takes predicates as well. -/
def Inhabits (P : Token → Prop) (cs : List (List Token)) (p : Token × List Token) : Prop :=
  ReadsSubquery p → ∀ b us, groupAhead p.2 = some (b, us) → Placed 0 b → ∃ r, Reprints b r ∧
    Receptive P r cs

/-- Clauses in order, none of which opens a comment. -/
structure RegularParts (P : Token → Prop) (parts : List (Token × List Token)) : Prop where
  order : (parts.map (·.1.keyword)).Sublist clauseOrder
  regular : ∀ p ∈ parts, RegularPart p
  placed : Placed 0 (clauseTokens parts)
  opener : opensComment (clauseTokens parts) = false
  tokens : ∀ t ∈ clauseTokens parts, P t

namespace RegularParts

theorem split (h : RegularParts P (ps ++ qs)) : RegularParts P ps ∧ RegularParts P qs := by
  have hps : ∀ u ∈ ps, RegularPart u := fun u hu ↦ h.regular u (List.mem_append_left _ hu)
  have hqs : ∀ u ∈ qs, RegularPart u := fun u hu ↦ h.regular u (List.mem_append_right _ hu)
  obtain ⟨hleft, hright⟩ := h.placed.clauses hps hqs
  have ho := h.order
  have hopen := h.opener
  have htokens := h.tokens
  rw [List.map_append] at ho
  rw [clauseTokens_append] at hopen htokens
  obtain ⟨hl, hr⟩ := List.forall_mem_append.1 htokens
  exact ⟨⟨(List.sublist_append_left _ _).trans ho, hps, hleft, opensComment_left _ _ hopen, hl⟩,
    ⟨(List.sublist_append_right _ _).trans ho, hqs, hright, opensComment_right _ _ hopen, hr⟩⟩

theorem exists_filled (hP : Lax P) (h : RegularParts P parts) : ∃ xs, Filled P parts xs :=
  QueryTemplate.exists_filled hP h.regular h.placed h.opener h.tokens

/-- A clause that is none of those after it. -/
theorem ne_of_mem (h : RegularParts P (ps ++ p :: qs)) (hq : Filled P qs ys)
    (hc : c.name = p.1.keyword) : ∀ y ∈ ys, y.clause ≠ c := by
  rintro y hy rfl
  have hnodup := h.order.nodup (by decide)
  have hmem : y.clause.name ∈ qs.map (·.1.keyword) :=
    hq.names ▸ List.mem_map_of_mem (f := (·.clause.name)) hy
  rw [List.map_append, List.map_cons] at hnodup
  rw [hc] at hmem
  exact (List.nodup_cons.1 (List.nodup_append.1 hnodup).2.1).1 hmem

/-- The clauses are put into a query one by one. -/
theorem parse (h : RegularParts P parts) (hx : Fills (clauseTokens parts) xs)
    (hc : ∀ x ∈ xs, x.clause ∈ Clause.printOrder)
    (hn : xs.map (·.clause.name) = parts.map (·.1.keyword)) :
    parseTokens [] (clauseTokens parts) {} = .ok (Query.puts {} xs) := by
  have := hx.parse Draft.ends_empty (accepts_of_order hc (hn ▸ h.order)).1
    (show ∀ g ∈ ([] : List Token), g.isBlank = true from nofun)
  rwa [List.append_nil] at this

theorem parse_append (h : RegularParts P (ps ++ qs)) (hp : Filled P ps xs) (hq : Filled P qs ys) :
    parseTokens [] (clauseTokens (ps ++ qs)) {} = .ok (Query.puts {} (xs ++ ys)) := by
  have hno : ∀ us, NoGroup us → NoGroup (clauseTokens qs ++ us) :=
    fun us hu ↦ noGroup_clauseTokens h.split.2.regular hu
  refine h.parse ?_ (List.forall_mem_append.2 ⟨hp.clauses, hq.clauses⟩)
    (by simp [hp.names, hq.names])
  rw [clauseTokens_append]
  intro q d us
  exact Fills.append hp.fills hq.fills hno

/-- A clause between others. -/
theorem parse_between (h : RegularParts P (ps ++ p :: qs)) (hp : Filled P ps xs)
    (hq : Filled P qs ys) (hx : Fills (p.1 :: p.2) [x]) (hc : x.clause ∈ Clause.printOrder)
    (hn : x.clause.name = p.1.keyword) :
    parseTokens [] (clauseTokens (ps ++ p :: qs)) {} = .ok (Query.puts {} (xs ++ x :: ys)) := by
  have hright := h.split.2.regular
  have hqs : ∀ u ∈ qs, RegularPart u := fun u hu ↦ hright u (List.mem_cons_of_mem _ hu)
  refine h.parse ?_ (List.forall_mem_append.2 ⟨hp.clauses, List.forall_mem_cons.2 ⟨hc, hq.clauses⟩⟩)
    (by simp [hp.names, hq.names, hn])
  have hpq : Fills ((p.1 :: p.2) ++ clauseTokens qs) ([x] ++ ys) :=
    Fills.append hx hq.fills fun us hu ↦ noGroup_clauseTokens hqs hu
  have hno : ∀ us, NoGroup us → NoGroup (((p.1 :: p.2) ++ clauseTokens qs) ++ us) := fun us hu ↦ by
    simpa [clauseTokens] using noGroup_clauseTokens hright hu
  rw [clauseTokens_append]
  intro q d us
  exact Fills.append hp.fills hpq hno

theorem middle (h : RegularParts P (ps ++ p :: qs)) :
    RegularPart p ∧ Placed 0 (p.1 :: p.2) ∧ opensComment (p.1 :: p.2) = false ∧
      ∀ t ∈ p.1 :: p.2, P t := by
  have hp : RegularParts P [p] :=
    (RegularParts.split (show RegularParts P ([p] ++ qs) from h.split.2)).1
  exact ⟨hp.regular p List.mem_cons_self,
    by simpa [clauseTokens] using hp.placed, by simpa [clauseTokens] using hp.opener,
    by simpa [clauseTokens] using hp.tokens⟩

end RegularParts

namespace Query

theorem put_subquery_source (q r r' : Query) (aliases : List Text) :
    { q.put (.subquery r aliases) with source := some (.subquery r') } =
      q.put (.subquery r' aliases) := by
  simp only [put]
  split <;> rfl

/-- Another query in the place of a subquery. -/
theorem puts_subquery (q r r' : Query) (aliases : List Text) (xs : List Filling)
    (hy : ∀ y ∈ ys, y.clause ≠ .source) :
    (q.puts (xs ++ .subquery r aliases :: ys)).source = some (.subquery r) ∧
      { q.puts (xs ++ .subquery r aliases :: ys) with source := some (.subquery r') } =
          q.puts (xs ++ .subquery r' aliases :: ys) := by
  have hcons : ∀ r, q.puts (xs ++ .subquery r aliases :: ys) =
      ((q.puts xs).put (.subquery r aliases)).puts ys := by
    intro r
    rw [puts_append]
    rfl
  have hsource : ∀ r, ((q.puts xs).put (.subquery r aliases)).source = some (.subquery r) := by
    intro r
    rw [← put_subquery_source _ r r]
  rw [hcons, hcons, ← puts_source _ hy, put_subquery_source]
  refine ⟨?_, rfl⟩
  have := puts_source (s := some (.subquery r)) ((q.puts xs).put (.subquery r aliases)) hy
  rw [put_subquery_source] at this
  rw [this]

/-- Predicates put in the place of those of `WHERE`. -/
theorem puts_assign_condition (q : Query) (items conjoined : List Text) (xs : List Filling)
    (hy : ∀ y ∈ ys, y.clause ≠ .slot .condition) :
    (q.puts (xs ++ .items (.slot .condition) items :: ys)).slots.condition = some items ∧
      (q.puts (xs ++ .items (.slot .condition) items :: ys)).assign conjoined (.slot .condition) =
        q.puts (xs ++ .items (.slot .condition) conjoined :: ys) := by
  have hcons : ∀ items, q.puts (xs ++ .items (.slot .condition) items :: ys) =
      ((q.puts xs).puts ys).assign items (.slot .condition) := by
    intro items
    rw [← puts_condition _ hy, puts_append]
    rfl
  rw [hcons, hcons, assign_assign]
  exact ⟨rfl, rfl⟩

/-- Predicates put into a query without `WHERE`. -/
theorem puts_insert_condition (items : List Text)
    (hx : ∀ y ∈ xs ++ ys, y.clause ∈ Clause.printOrder ∧ y.clause ≠ .slot .condition) :
    (puts {} (xs ++ ys)).slots.condition = none ∧
      (puts {} (xs ++ ys)).assign items (.slot .condition) =
          puts {} (xs ++ .items (.slot .condition) items :: ys) := by
  constructor
  · have hhas := has_puts (q := {}) (fun y hy ↦ (hx y hy).1)
      (show Clause.slot .condition ≠ .slot .aliases by decide)
    have hnot : (xs ++ ys).any (·.clause = .slot .condition) = false := by
      rw [List.any_eq_false]
      intro y hy
      simpa using (hx y hy).2
    rw [hnot] at hhas
    simpa [has, Slots.get] using hhas
  · rw [puts_append, ← puts_condition _ fun y hy ↦ (hx y (List.mem_append_right _ hy)).2,
      puts_append]
    rfl

end Query

theorem ReadsSubquery.mem_partLevels (h : ReadsSubquery p) (hg : groupAhead p.2 = some (a, b)) :
    a ∈ partLevels p := by
  rw [partLevels, if_pos h.1, hg]
  exact List.mem_cons_self

theorem opensComment_groupAhead (hg : groupAhead ts = some (a, b)) (ho : opensComment ts = false) :
    opensComment a = false ∧ opensComment b = false := by
  obtain ⟨gs, o, e, rfl, -⟩ := groupAhead_eq_some hg
  have hin : opensComment (a ++ e :: b) = false :=
    opensComment_right (gs ++ [o]) _ (by simpa using ho)
  exact ⟨opensComment_left _ _ hin, opensComment_right (a ++ [e]) _ (by simpa using hin)⟩

namespace RegularParts

/-- A subquery takes predicates in the place of its statement. -/
theorem receptive_subquery (hP : Lax P) (h : RegularParts P (ps ++ p :: qs)) (hr : ReadsSubquery p)
    (hne : cs ≠ []) (hin : Inhabits P cs p)
    (hq : parseTokens [] (clauseTokens (ps ++ p :: qs)) {} = .ok q) : Receptive P q cs := by
  obtain ⟨hleft, hright⟩ := h.split
  obtain ⟨hp, hmid, hopen, htokens⟩ := h.middle
  obtain ⟨xs, hxs⟩ := hleft.exists_filled hP
  obtain ⟨ys, hys⟩ := (RegularParts.split
    (show RegularParts P ([p] ++ qs) from hright)).2.exists_filled hP
  obtain ⟨b, us, aliases, cells, hg, -, hb, hus, hlist, hle, hprints⟩ := hp.exists_subquery hmid hr
  obtain ⟨r, hr', hrec⟩ := hin hr b us hg hb
  have hname : Clause.source.name = p.1.keyword := hr.1.symm
  have hclause : Clause.source ∈ Clause.printOrder := by decide
  have hparse := h.parse_between hxs hys (hprints r hr').fills hclause hname
  obtain rfl : Query.puts {} (xs ++ .subquery r aliases :: ys) = q :=
    Except.ok.inj (hparse.symm.trans hq)
  obtain ⟨hsub, hput⟩ := Query.puts_subquery {} r (Filter.inject r (cs.map textOf)) aliases xs
    (h.ne_of_mem hys hname)
  have hinject := Filter.inject_subquery hsub (show cs.map textOf ≠ [] by simpa using hne)
  rw [hput] at hinject
  have hus' : ∀ t ∈ us, P t := by
    obtain ⟨gs, o, e, hp, -⟩ := groupAhead_eq_some hg
    exact fun t ht ↦ htokens t (by simp [hp, ht])
  have htypeset := typeset_subquery hP hrec.typeset hus' hlist hle hus
    (opensComment_groupAhead hg (opensComment_right [p.1] _ hopen)).2
  obtain ⟨hclausal, hlines⟩ := hxs.receptive hP hys
    (x := .subquery (Filter.inject r (cs.map textOf)) aliases) htypeset hclause nofun
    (by simpa [hname] using h.order)
  exact ⟨hinject ▸ hclausal, hinject ▸ hlines⟩

/-- `WHERE` takes further predicates. -/
theorem receptive_condition (hP : Lax P) (h : RegularParts P (ps ++ p :: qs))
    (hk : p.1.keyword = "where".toList) (hcs : ∀ c ∈ cs, IsCondition P c) (hne : cs ≠ [])
    (hno : ∀ u ∈ ps ++ p :: qs, ¬ ReadsSubquery u)
    (hq : parseTokens [] (clauseTokens (ps ++ p :: qs)) {} = .ok q) :
    Receptive P q cs := by
  obtain ⟨hleft, hright⟩ := h.split
  obtain ⟨hp, hmid, hopen, htokens⟩ := h.middle
  obtain ⟨xs, hxs⟩ := hleft.exists_filled hP
  obtain ⟨ys, hys⟩ := (RegularParts.split
    (show RegularParts P ([p] ++ qs) from hright)).2.exists_filled hP
  have hname : (Clause.slot .condition).name = p.1.keyword := hk.symm
  have hclause : Clause.slot .condition ∈ Clause.printOrder := by decide
  have hw : Clause.ofKeyword? p.1.keyword = some (.slot .condition) := by
    rw [hk]
    decide
  obtain ⟨items, cells, hlist, -⟩ :=
    exists_listed_of_noComma (hp.pending hmid hclause hname nofun) hp.comma
  have hprints := hlist.prints hw hp.heading (hmid.tokens p.1 List.mem_cons_self).1 hp.balanced
    (.inl hp.comma)
  have hparse := h.parse_between hxs hys hprints.fills hclause hname
  obtain rfl : Query.puts {} (xs ++ .items (.slot .condition) items :: ys) = q :=
    Except.ok.inj (hparse.symm.trans hq)
  obtain ⟨hcond, hput⟩ := Query.puts_assign_condition {} items
    (Filter.conjoin items (cs.map textOf)) xs (h.ne_of_mem hys hname)
  have hsource : ∀ r, (Query.puts {} (xs ++ .items (.slot .condition) items :: ys)).source ≠ some
      (.subquery r) := by
    refine Query.puts_items nofun (List.forall_mem_append.2
      ⟨fun x hx ↦ ?_, List.forall_mem_cons.2 ⟨⟨_, _, rfl⟩, fun y hy ↦ ?_⟩⟩)
    · exact (hxs.items x hx).resolve_right fun ⟨u, hu, hr⟩ ↦ hno u (List.mem_append_left _ hu) hr
    · exact (hys.items y hy).resolve_right fun ⟨u, hu, hr⟩ ↦ hno u (by simp [hu]) hr
  have hinject := Filter.inject_table hsource (show cs.map textOf ≠ [] by simpa using hne)
  rw [hcond, Option.getD_some, hput] at hinject
  have hblock : ∀ gap, IsGap gap →
      IsBlock P (Clause.title (.slot .condition) :: spread gap 0 cells) := fun gap hgap ↦
    .of_relaid hP htokens hmid hopen (hlist.relaid_clause hw hp.heading (.inl hp.comma) hgap)
      (by simp) (by simp [Clause.title, Token.isBlank])
  have htypeset := typeset_conjoined hP hne hcs hblock hlist.good hlist.shape
  obtain ⟨hclausal, hlines⟩ := hxs.receptive hP hys
    (x := .items (.slot .condition) (Filter.conjoin items (cs.map textOf))) htypeset hclause
    (by simp) (by simpa [hname] using h.order)
  exact ⟨hinject ▸ hclausal, hinject ▸ hlines⟩

/-- A `WHERE` with the predicates is put where there was none. -/
theorem receptive_insert (hP : Lax P) (h : RegularParts P (ps ++ qs))
    (ho : (ps.map (·.1.keyword) ++ "where".toList :: qs.map (·.1.keyword)).Sublist clauseOrder)
    (hcs : ∀ c ∈ cs, IsCondition P c) (hne : cs ≠ []) (hno : ∀ u ∈ ps ++ qs, ¬ ReadsSubquery u)
    (hq : parseTokens [] (clauseTokens (ps ++ qs)) {} = .ok q) : Receptive P q cs := by
  obtain ⟨hleft, hright⟩ := h.split
  obtain ⟨xs, hxs⟩ := hleft.exists_filled hP
  obtain ⟨ys, hys⟩ := hright.exists_filled hP
  have hclause : Clause.slot .condition ∈ Clause.printOrder := by decide
  obtain rfl : Query.puts {} (xs ++ ys) = q :=
    Except.ok.inj ((h.parse_append hxs hys).symm.trans hq)
  have hnodup := ho.nodup (by decide)
  have hname : (Clause.slot .condition).name = "where".toList := by decide
  have hmem : ∀ {ps xs y}, Filled P ps xs → y ∈ xs → y.clause = .slot .condition →
      "where".toList ∈ ps.map (·.1.keyword) := by
    intro ps xs y hp hy e
    rw [← hp.names, ← hname, ← e]
    exact List.mem_map_of_mem (f := (·.clause.name)) hy
  obtain ⟨-, hnodup, hdisjoint⟩ := List.nodup_append.1 hnodup
  have hwhere : ∀ y ∈ xs ++ ys, y.clause ∈ Clause.printOrder ∧ y.clause ≠ .slot .condition := by
    refine List.forall_mem_append.2 ⟨fun x hx ↦ ⟨hxs.clauses x hx, fun e ↦ ?_⟩,
      fun y hy ↦ ⟨hys.clauses y hy, fun e ↦ ?_⟩⟩
    · exact hdisjoint _ (hmem hxs hx e) _ List.mem_cons_self rfl
    · exact (List.nodup_cons.1 hnodup).1 (hmem hys hy e)
  have hsource : ∀ r, (Query.puts {} (xs ++ ys)).source ≠ some (.subquery r) := by
    refine Query.puts_items nofun (List.forall_mem_append.2 ⟨fun x hx ↦ ?_, fun y hy ↦ ?_⟩)
    · exact (hxs.items x hx).resolve_right fun ⟨u, hu, hr⟩ ↦ hno u (List.mem_append_left _ hu) hr
    · exact (hys.items y hy).resolve_right fun ⟨u, hu, hr⟩ ↦ hno u (List.mem_append_right _ hu) hr
  obtain ⟨hcond, hput⟩ := Query.puts_insert_condition (Filter.conjoin [] (cs.map textOf)) hwhere
  have hinject := Filter.inject_table hsource (show cs.map textOf ≠ [] by simpa using hne)
  rw [hcond, Option.getD_none, hput] at hinject
  have hblock : ∀ gap, IsGap gap → IsBlock P (Clause.title (.slot .condition) :: spread gap 0 []) :=
    fun gap _ ↦
    .singleton (title_spec (.slot .condition) (by decide)).1 (hP _ (by decide))
      ⟨by decide, by decide⟩
  have htypeset := typeset_conjoined hP hne hcs hblock nofun
    (show Shape (.slot .condition) [] 0 [] from ⟨rfl, fun h ↦ absurd rfl h⟩)
  obtain ⟨hclausal, hlines⟩ := hxs.receptive hP hys
    (x := .items (.slot .condition) (Filter.conjoin [] (cs.map textOf))) htypeset hclause
    nofun ho
  exact ⟨hinject ▸ hclausal, hinject ▸ hlines⟩

/-- A statement takes predicates, be it in a `WHERE` of its own or of the statement it reads from.
-/
theorem receptive (hP : Lax P) (h : RegularParts P parts) (hcs : ∀ c ∈ cs, IsCondition P c)
    (hne : cs ≠ []) (hin : ∀ p ∈ parts, Inhabits P cs p)
    (hq : parseTokens [] (clauseTokens parts) {} = .ok q) : Receptive P q cs := by
  by_cases hsub : ∃ p ∈ parts, ReadsSubquery p
  · obtain ⟨p, hp, hr⟩ := hsub
    obtain ⟨ps, qs, rfl⟩ := List.append_of_mem hp
    exact h.receptive_subquery hP hr hne (hin p hp) hq
  · have hno : ∀ u ∈ parts, ¬ ReadsSubquery u := fun u hu hr ↦ hsub ⟨u, hu, hr⟩
    have horder : clauseOrder = ["with".toList, "select".toList, "from".toList,
      "prewhere".toList] ++
        "where".toList :: ["group by".toList, "having".toList, "order by".toList, "limit".toList,
            "format".toList] := rfl
    have ho := h.order
    rw [horder, List.sublist_append_iff] at ho
    obtain ⟨ks, ls, hkeys, hks, hls⟩ := ho
    obtain ⟨ps, qs, rfl, rfl, rfl⟩ := List.map_eq_append_iff.1 hkeys
    rcases List.sublist_cons_iff.1 hls with hls | ⟨ls, hls', hsub'⟩
    · exact h.receptive_insert hP (horder ▸ hks.append (hls.cons_cons _)) hcs hne hno hq
    · obtain ⟨p, qs, rfl, hk, -⟩ := List.map_eq_cons_iff.1 hls'
      exact h.receptive_condition hP hk hcs hne hno hq

end RegularParts

namespace Filter

variable {conditions : List Text}

/-- The predicates change nothing but `WHERE` and what is read from. -/
theorem inject_rest (q : Query) (us : Option (List Query)) (conditions : List Text) :
    (inject q conditions).unions = q.unions ∧
    (inject q conditions).slots.format = q.slots.format ∧
      inject { q with unions := us } conditions = { inject q conditions with unions := us } := by
  by_cases hne : conditions = []
  · simp [inject, hne]
  · by_cases hs : ∃ r, q.source = some (.subquery r)
    · obtain ⟨r, hr⟩ := hs
      rw [inject_subquery hr hne, inject_subquery (q := { q with unions := us }) hr hne]
      exact ⟨rfl, rfl, rfl⟩
    · have hs : ∀ r, q.source ≠ some (.subquery r) := fun r h ↦ hs ⟨r, h⟩
      rw [inject_table hs hne, inject_table (q := { q with unions := us }) hs hne]
      exact ⟨rfl, rfl, rfl⟩

end Filter

/-- The statements after `UNION ALL` follow those before it. -/
theorem Typeset.unions {f : Text → List Text} {rs : List Query} (hP : Lax P) (h : Typeset P cs f)
    (hr : ∀ r ∈ rs, Typeset P [] r.lines) :
    Typeset P cs fun indent ↦ f indent ++ Query.lines.unionLines indent rs := by
  induction rs generalizing f with
  | nil => simpa [Query.lines.unionLines] using h
  | cons r rs ih =>
    obtain ⟨hr, hrs⟩ := List.forall_mem_cons.1 hr
    have htitle : Typeset P [] fun indent ↦ [indent ++ "UNION ALL".toList] := by
      intro indent hi
      have hl := (title_spec .unions (by decide)).1
      have htext : Clause.unions.title.text = "UNION ALL".toList := by decide
      exact ⟨[Clause.unions.title], by simp [Text.join, htext], .cons rfl ⟨_, hl⟩ _, .singleton hl (hP.of_word hl rfl) ⟨by decide, by decide⟩, List.forall_mem_nil _⟩
    have hlines : Typeset P [] fun indent ↦ [Text.join ['\n'] (r.lines indent)] :=
      fun indent hi ↦ hr indent hi
    have happend := (h.append hP htitle).append hP hlines
    rw [List.append_nil, List.append_nil] at happend
    simpa [Query.lines.unionLines] using ih happend hrs

/-- So they do if predicates are put into the statement before them. -/
theorem Receptive.unions {rs : List Query} (hP : Lax P) (h : Receptive P q cs)
    (hq : q.unions = none) (hf : rs = [] ∨ q.slots.format = none)
    (hr : ∀ r ∈ rs, Typeset P [] r.lines) :
    Receptive P { q with unions := if rs = [] then none else some rs } cs := by
  obtain ⟨hunions, hformat, hwith⟩ :=
    Filter.inject_rest q (if rs = [] then none else some rs) (cs.map textOf)
  have hlines : ∀ indent, Query.lines indent { Filter.inject q (cs.map textOf) with unions := if rs = [] then none else some rs } =
      (Filter.inject q (cs.map textOf)).lines indent ++ Query.lines.unionLines indent rs := by
    intro indent
    rw [Query.lines_with_unions h.clausal (hunions.trans hq)
      (hf.imp (fun e ↦ if_pos e) hformat.trans)]
    congr 1
    rw [Query.branchLines]
    by_cases e : rs = []
    · simp [e, Query.lines.unionLines]
    · simp [e]
  exact ⟨hwith ▸ h.clausal.with_unions _,
    by simpa only [hwith, hlines] using h.typeset.unions hP hr⟩

/-- A statement whose clauses are in order takes predicates. -/
theorem RegularLevel.receptive (hP : Lax P) (h : RegularLevel ts) (ht : ∀ t ∈ ts, P t)
    (hp : Placed 0 ts) (ho : opensComment ts = false) (hcs : ∀ c ∈ cs, IsCondition P c)
    (hne : cs ≠ []) : ∃ q, Reprints ts q ∧ Receptive P q cs := by
  induction h with
  | @mk ts hc hl ih =>
    obtain ⟨q, hq⟩ := RegularLevel.reprints ⟨hc, hl⟩ hp
    refine ⟨q, hq, ?_⟩
    have hsplit := splitOutside_eq_branches ts
    obtain ⟨hown, hbranches⟩ := List.forall_mem_cons.1 (hsplit ▸ hp.of_mem_splitOutside)
    have hjoin : ∀ t ∈ ts, t.kind ≠ .join := fun t ht ↦ (hp.tokens t ht).2.2.2.1
    obtain ⟨q₀, rs, hparse, rfl⟩ :=
      (parseTokens_statements hp.balanced
      (inStatement_of_mem_splitOutside hp.balanced hjoin) _).1 hq.parse
    rw [hsplit, List.map_cons, List.map_cons] at hparse
    obtain ⟨hq₀, hrs⟩ := List.cons.inj hparse
    have hparts := hc.regularPart hown.balanced fun b hb hp ↦ (hl b hb).reprints hp
    obtain ⟨q', hq', hnone, hformat⟩ := exists_statement
      (show sections isHeading 0 (ownTokens ts) =
        ⟨_, clauseParts ts⟩ from rfl) hc.parts_ne_nil hc.lead hc.order hparts hown
    obtain rfl : q' = q₀ := Except.ok.inj (hq'.parse.symm.trans hq₀)
    have hrs' : ∀ r ∈ rs, ∃ b ∈ unionBranches ts, parseTokens [] b {} = .ok r := by
      intro r hr
      have := List.mem_map_of_mem (f := (Except.ok : Query → Except Error Query)) hr
      rw [← hrs] at this
      exact List.mem_map.1 this
    have hopener : ∀ {b}, b <:+: ts → opensComment b = false := by
      rintro _ ⟨x, y, rfl⟩
      exact opensComment_right _ _ (opensComment_left _ _ ho)
    have hpiece : ∀ b ∈ ownTokens ts :: unionBranches ts, b <:+: ts :=
      fun b hb ↦ isInfix_of_mem_splitOutside (hsplit ▸ hb)
    have htokens : ownTokens ts = (sections isHeading 0 (ownTokens ts)).lead ++ clauseTokens
      (clauseParts ts) :=
      (tokens_sections isHeading 0 (ownTokens ts)).symm
    have hown' := hopener (hpiece _ List.mem_cons_self)
    have hownP : ∀ t ∈ ownTokens ts, P t := fun t h ↦ ht t ((hpiece _ List.mem_cons_self).subset h)
    rw [htokens] at hown hown' hq₀ hownP
    have hregular : RegularParts P (clauseParts ts) :=
      ⟨hc.order, hparts, hown.blanks hc.lead, opensComment_right _ _ hown',
      (List.forall_mem_append.1 hownP).2⟩
    rw [parse_blanks hc.lead] at hq₀
    refine Receptive.unions hP (hregular.receptive hP hcs hne
      (fun p hp hr b us hg hb ↦ ?_) hq₀) hnone ?_ fun r hr ↦ ?_
    · have hmem : b ∈ subLevels ts :=
        List.mem_append_left _ (List.mem_flatMap.2 ⟨p, hp, hr.mem_partLevels hg⟩)
      have hpart : p.2 <:+: ownTokens ts :=
        isInfix_of_mem_splitOutside (List.mem_cons_of_mem _ (List.mem_map_of_mem hp))
      have hbP : ∀ t ∈ b, P t := by
        obtain ⟨gs, o, e, hp, -⟩ := groupAhead_eq_some hg
        exact fun t h ↦ ht t ((hpiece _ List.mem_cons_self).subset (hpart.subset (by simp [hp, h])))
      exact ih b hmem hbP hb (opensComment_groupAhead hg
        (hopener (hpart.trans (hpiece _ List.mem_cons_self)))).1
    · refine hc.union.imp (fun e ↦ ?_) hformat
      rw [e] at hrs
      exact List.map_eq_nil_iff.1 hrs.symm
    · obtain ⟨b, hb, hbr⟩ := hrs' r hr
      obtain ⟨r', hr'⟩ := (hl b (List.mem_append_right _ hb)).reprints (hbranches b hb)
      obtain rfl : r' = r := Except.ok.inj (hr'.parse.symm.trans hbr)
      exact hr'.typeset hP (fun t h ↦ ht t ((hpiece b (List.mem_cons_of_mem _ hb)).subset h))
        (hbranches b hb) (hopener (hpiece b (List.mem_cons_of_mem _ hb)))

end QueryTemplate
