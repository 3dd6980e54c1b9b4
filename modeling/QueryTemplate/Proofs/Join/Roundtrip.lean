import QueryTemplate.Proofs.Join.Statement
namespace QueryTemplate

open Token Fragment Grammar

variable {a b e ts us z gs : List Token} {f t : Token} {items : List Text} {indent : Text}
    {js : List (Join Query)}
  {xs : List Filling} {q : Query} {ks : List Text}

/-- `FROM` as it is printed. -/
def sourceTitle : Token := Clause.source.title

theorem lexed_sourceTitle : Lexed [sourceTitle] := (title_spec .source (by decide)).1

theorem listLines_source (hi : IsIndent indent) {x : Text} (hx : Phrased x) :
    Query.listLines indent .source [x] = [indent ++ sourceTitle.text ++ ' ' :: x] ∧
      ∃ n, Adds (Query.listLines indent .source [x]) n := by
  have htitle : tally false sourceTitle.text = some (0, false) := tally_title (by decide)
  refine ⟨?_, _, .clauseLines hi (adds_of_phrased (List.forall_mem_singleton.2 hx))
    (.inr rfl) htitle⟩
  exact congrArg (fun y ↦ [y]) (glue_eq ((hi.tally _).trans htitle) hx.solid.trimEnd hx.ne_nil)

theorem Restates.blanks (hg : ∀ g ∈ gs, g.isBlank = true) (h : Restates ts q) :
    Restates (gs ++ ts) q where
  parse := (parse_blanks hg ts).trans h.parse
  lines := h.lines
  printed indent hi := by
    obtain ⟨ps, htext, hhead, hparse, hrelaid⟩ := h.printed indent hi
    refine ⟨ps, htext, hhead, hparse, fun {z vs us} he ↦ ?_⟩
    rw [List.append_assoc]
    exact (hrelaid he).blanks hg

/-- A statement is read again from its parts as they are printed. -/
theorem restates_joined (ha : Renders a (.items (.slot .select) items)) (hne : items ≠ [])
    (hf : f.isClause "from" = true) (hl : Lexical f) (hn : ∀ u ∈ inked us, IsNaming u)
    (hm : Material us) (hi : inked us ≠ []) (hj : Attaches ts js) (he : Finishes e xs) :
    Restates (a ++ (f :: us ++ (ts ++ e))) ((joinedQuery items (written us).text js).puts xs) := by
  have hphrase := hm.firm.phrased hi
  have hclause : f.kind = .clause ∧ f.keyword = "from" := by simpa [isClause] using hf
  have hlines := lines_joined hne he.clause he.one
  refine ⟨?_, fun indent hd ↦ ?_, fun indent hd ↦ ?_⟩
  · have hfrom : Headed (f :: us) := .cons hclause.1 hl us
    have hhalt : Halts (e ++ []) := he.halts (List.forall_mem_nil _)
    have h := parse_joined ha.prints.fills
      (fills_from hf hn hm.firm hi) hj.reads he.fills he.clause he.one
      (fun vs ↦ (hfrom.append vs).noGroup) hhalt (List.forall_mem_nil _)
    rwa [List.append_nil] at h
  · obtain ⟨k, hk⟩ := ha.lines indent hd
    obtain ⟨-, l, hsource⟩ := listLines_source hd hphrase
    obtain ⟨m, hm⟩ := hj.lines indent hd
    obtain ⟨n, hn⟩ := he.lines indent hd
    rw [hlines]
    exact ⟨_, ((hk.append hsource).append hm).append hn⟩
  obtain ⟨as, atext, ahead, afills, arelaid⟩ := ha.prints.printed indent hd
  obtain ⟨ps, ptext, preads, plays⟩ := hj.printed indent hd
  obtain ⟨ys, ytext, yfills, yhalts, yonward⟩ := he.printed indent hd
  have hhead : ∀ vs, Headed (sourceTitle :: (spell us ++ vs)) :=
    fun vs ↦ .cons rfl ⟨[], lexed_sourceTitle⟩ _
  refine ⟨as ++ (newLine indent :: sourceTitle :: spell us ++ (ps ++ ys)), ?_, ahead.append _,
    fun gs hg ↦ ?_, fun {z vs ws} hz ↦ ?_⟩
  · have hnil : Query.listLines indent (.slot .select) items ≠ [] := fun h ↦ by
      rw [List.flatMap_singleton, Filling.lines, h] at atext
      exact ahead.textOf_ne_nil (List.append_eq_nil_iff.1 atext.symm).2
    obtain ⟨l, ls, hls⟩ := List.exists_cons_of_ne_nil hnil
    rw [List.flatMap_singleton, Filling.lines, hls, join_cons] at atext
    rw [Query.printAt, hlines, (listLines_source hd hphrase).1, hls, List.append_assoc,
      List.append_assoc, List.cons_append, join_cons, List.flatMap_append, List.flatMap_append,
      List.flatMap_append, ptext, ytext, ← List.append_assoc, atext]
    simp [newLine, textOf_spell_ink hi]
  · have hnaming : ∀ u ∈ inked (spell us), IsNaming u := by rwa [inked_spell]
    have hfrom : Fills (sourceTitle :: spell us) [.items .source [(written (spell us)).text]] :=
      fills_from (by decide) hnaming hm.firm.spell (by rwa [inked_spell])
    have h :=
      parse_joined afills (Fills.blank hfrom hd.isGap.isBlank) preads yfills he.clause he.one
      (fun vs ↦ (noGroup_blank hd.isGap.isBlank _).2 (hhead vs).noGroup) (yhalts hg) hg
    rw [written_congr (inked_spell us)] at h
    simpa using h
  · have hrest := (Lays.append (Lays.spell hm) plays).onward (yonward hz)
    have htitle := Lays.title hl
      (Token.isTitle_of_clause hclause.1) lexed_sourceTitle hclause.1.symm hclause.2.symm hd.isGap
    have hsource := htitle.onward hrest
    have hend : Ending z (f :: (us ++ ts ++ (e ++ vs)))
      (newLine indent :: sourceTitle :: (spell us ++ ps ++ (ys ++ ws))) :=
      ⟨by simpa using hsource.relaid, by simpa using hsource.sealed, (Headed.cons hclause.1 hl _).ahead,
        (ahead_blank hd.isGap.isBlank _).trans (Headed.cons rfl ⟨[], lexed_sourceTitle⟩ _).ahead⟩
    simpa using arelaid hend

/-- However they are laid out, the tokens are read as joins of the kinds `ks`, and so is what these
are printed as. -/
def Joinable (us : List Token) (ks : List Text) : Prop :=
  ∀ ts z : List Token, inked ts = us → Sited ts z → ∃ js, Attaches ts js ∧ js.map (·.kind) = ks

/-- However they are laid out, the tokens are read as a query with joins of the kinds `ks`, and so
is what it is printed as. -/
def Restatable (us : List Token) (ks : List Text) : Prop :=
  ∀ ts z : List Token, inked ts = us → Sited ts z → ahead z = [] → ∃ q, Restates ts q ∧
    q.joins.map (·.kind) = ks

theorem joinable_nil : Joinable [] [] := fun _ _ hi _ ↦ ⟨[], .blanks (isBlank_of_inked hi), rfl⟩

theorem mem_commaList {x y : List Token} {ys : List (List Token)} (hy : y ∈ x :: ys) (ht : t ∈ y) :
    t ∈ commaList x ys := by
  rcases List.mem_cons.1 hy with rfl | hy
  · exact List.mem_append_left _ ht
  · exact List.mem_append_right _ (List.mem_flatMap.2 ⟨y, hy, List.mem_cons_of_mem _ ht⟩)

theorem exists_attaches {j : Join Query} (hg : ∀ g ∈ gs, g.isBlank = true) (hj : Attaches a [j])
    (h : ∃ js, Attaches b js ∧ js.map (·.kind) = ks) :
    ∃ js, Attaches (gs ++ (a ++ b)) js ∧ js.map (·.kind) = j.kind :: ks := by
  obtain ⟨js, hs, rfl⟩ := h
  exact ⟨j :: js, (Attaches.blanks hg).append (hj.append hs), rfl⟩

theorem joinable_arrays {l r : List Token} (hk : t.kind = .join) (ht : isArrayJoin t = true)
    (hl : IsList l) (h : Joinable r ks) : Joinable (t :: (l ++ r)) (t.keyword :: ks) := by
  intro ts z hi hs
  obtain ⟨gs, vs, rfl, hg, -, hv⟩ := exists_of_inked_eq_cons hi
  obtain ⟨a, b, rfl, ha, hb⟩ := exists_of_inked_eq_append hv
  obtain ⟨x, ys, rfl, hys⟩ := hl
  obtain ⟨y, zs, rfl, hz⟩ := exists_commaList ha
  have hm := (hs.right.left (a := t :: commaList y zs)).material
  have henters : ∀ w ∈ y :: zs, Enters w := fun w hw ↦
    ⟨hm.tail.firm.subset fun u hu ↦ mem_commaList hw hu, hys _ (hz ▸ List.mem_map_of_mem hw)⟩
  exact exists_attaches hg (.arrays hk ht hm henters)
    (h _ _ hb (hs.right.right (a := t :: commaList y zs)))

theorem joinable_table {n w r : List Token} (hk : t.kind = .join) (ht : isArrayJoin t = false)
    (hn : IsName n) (hw : IsTail w) (h : Joinable r ks) :
    Joinable (t :: (n ++ w ++ r)) (t.keyword :: ks) := by
  intro ts z hi hs
  obtain ⟨gs, vs, rfl, hg, -, hv⟩ := exists_of_inked_eq_cons hi
  obtain ⟨a, b, rfl, ha, hb⟩ := exists_of_inked_eq_append hv
  obtain ⟨c, d, rfl, rfl, rfl⟩ := exists_of_inked_eq_append ha
  have hm := (hs.right.left (a := t :: (c ++ d))).material
  obtain ⟨ps, y, hy⟩ := exists_completes hw hm.tail.right
  exact exists_attaches hg (.table hk ht hm hn hy) (h _ _ hb (hs.right.right (a := t :: (c ++ d))))

theorem joinable_subquery {o e : Token} {l w r : List Token} {ls : List Text} (hk : t.kind = .join)
    (ht : isArrayJoin t = false) (ho : o.isOpenParen = true) (hl : Balanced l)
    (hq : Restatable l ls) (he : e.isCloseParen = true) (hw : IsTail w) (h : Joinable r ks) :
    Joinable (t :: o :: (l ++ e :: (w ++ r))) (t.keyword :: ks) := by
  intro ts z hi hs
  obtain ⟨gs, vs, rfl, hg, -, hv⟩ := exists_of_inked_eq_cons hi
  obtain ⟨hs', vs, rfl, hh, -, hv⟩ := exists_of_inked_eq_cons hv
  obtain ⟨a, vs, rfl, ha, hv⟩ := exists_of_inked_eq_append hv
  obtain ⟨gaps, vs, rfl, hgaps, -, hv⟩ := exists_of_inked_eq_cons hv
  obtain ⟨c, d, rfl, rfl, hd⟩ := exists_of_inked_eq_append hv
  have hbody : inked (a ++ gaps) = l := by
    have : inked gaps = [] := by simpa [inked] using hgaps
    rw [inked_append, this, List.append_nil, ha]
  -- the tokens around the statement in parentheses
  have hsplit : gs ++ t :: (hs' ++ o :: (a ++ (gaps ++ e :: (c ++ d)))) =
      gs ++ (t :: ((hs' ++ o :: (a ++ gaps ++ [e])) ++ c) ++ d) := by simp
  rw [hsplit] at hs ⊢
  have hj := hs.right.left
  have hstatement : Sited (a ++ gaps) (e :: (c ++ (d ++ z))) := by
    have h' : Sited (t :: hs' ++ [o] ++ (a ++ gaps ++ e :: c)) (d ++ z) := by simpa using hj
    simpa using h'.right.left
  obtain ⟨-, -, hblank, hword⟩ := isBlank_of_isCloseParen he
  obtain ⟨q, hrestates, -⟩ := hq _ _ hbody hstatement (ahead_symbol hblank hword _)
  obtain ⟨ps, y, hy⟩ := exists_completes hw hj.material.tail.right
  have hbalanced : Balanced (a ++ gaps) := by rwa [Balanced, ← depthRun_inked, hbody]
  exact exists_attaches hg
    (.subquery hk ht (hj.material.firm t List.mem_cons_self).1 hh ho he hbalanced hrestates hy)
      (h _ _ hd hs.right.right)

theorem exists_finishes (hw : IsWhere (inked ts)) (hs : Sited ts z) (hz : ahead z = []) :
    ∃ gs e xs, ts = gs ++ e ∧ (∀ g ∈ gs, g.isBlank = true) ∧ Finishes e xs := by
  generalize hi : inked ts = us at hw
  cases hw with
  | none => exact ⟨[], ts, [], rfl, nofun, .blanks (isBlank_of_inked hi)⟩
  | some ht hp =>
    obtain ⟨gs, vs, rfl, hg, -, rfl⟩ := exists_of_inked_eq_cons hi
    obtain ⟨items, hr⟩ := exists_renders_where ht hs.right hz hp
    exact ⟨gs, _, _, rfl, hg, hr.finishes⟩

theorem joins_finish (hc : ∀ y ∈ xs, ∃ items, y = .items (.slot .condition) items)
    (items : List Text) (x : Text) (js : List (Join Query)) :
    ((joinedQuery items x js).puts xs).joins = js := by
  have hputs : ∀ q : Query, (q.puts xs).joins = q.joins := by
    induction xs with
    | nil => exact fun _ ↦ rfl
    | cons y xs ih =>
      obtain ⟨⟨ys, rfl⟩, hxs⟩ := List.forall_mem_cons.1 hc
      exact fun q ↦ (ih hxs _).trans rfl
  exact hputs _

theorem restatable_mk {s f : Token} {l n as jn w : List Token} (hs : s.isClause "select" = true)
    (hl : IsList l) (hf : f.isClause "from" = true) (hn : IsName n) (ha : IsAlias as)
    (hj : Joinable jn ks) (hw : IsWhere w) :
    Restatable (s :: (l ++ f :: (n ++ as ++ (jn ++ w)))) ks := by
  intro ts z hi hsit hz
  obtain ⟨g₀, vs, rfl, hg₀, -, hv⟩ := exists_of_inked_eq_cons hi
  obtain ⟨a, vs, rfl, hitems, hv⟩ := exists_of_inked_eq_append hv
  obtain ⟨g₁, vs, rfl, hg₁, -, hv⟩ := exists_of_inked_eq_cons hv
  obtain ⟨b, vs, rfl, hb, hv⟩ := exists_of_inked_eq_append hv
  obtain ⟨c, d, rfl, hc, rfl⟩ := exists_of_inked_eq_append hv
  have hsplit : g₀ ++ s :: (a ++ (g₁ ++ f :: (b ++ (c ++ d)))) =
      g₀ ++ (s :: (a ++ g₁) ++ (f :: b ++ (c ++ d))) := by simp
  rw [hsplit] at hsit ⊢
  have hclause : f.kind = .clause := by
    simp only [isClause, Bool.and_eq_true, decide_eq_true_eq] at hf
    exact hf.1
  have hfrom := hsit.right.right.left
  have hlf := (hfrom.material.firm f List.mem_cons_self).1
  have hlist : IsList (inked (a ++ g₁)) := by
    have : inked g₁ = [] := by simpa [inked] using hg₁
    rwa [inked_append, this, List.append_nil, hitems]
  obtain ⟨items, hr, hne⟩ := exists_renders_select hs hsit.right.left
    (Headed.cons hclause hlf _).ahead hlist
  obtain ⟨g₂, e, xs, rfl, hg₂, he⟩ := exists_finishes hw hsit.right.right.right.right hz
  obtain ⟨js, hjs, rfl⟩ := hj _ _ hc hsit.right.right.right.left
  have hnaming : ∀ u ∈ inked b, IsNaming u := by
    rw [hb]
    exact List.forall_mem_append.2 ⟨hn.naming, ha.naming⟩
  have hink : inked b ≠ [] := by
    obtain ⟨u, us, rfl, -⟩ := hn
    rw [hb]
    simp [chain]
  have h := restates_joined hr hne hf hlf hnaming hfrom.material.tail hink
    (hjs.append (.blanks hg₂)) he
  rw [List.append_nil] at h
  exact ⟨_, .blanks hg₀ (by simpa using h), congrArg (List.map _) (joins_finish he.clause _ _ _)⟩

/-- Every query of the form is read and printed, and so are all joins, those of the statements in
them too. -/
theorem Joined.restatable (h : Joined us ks) : Restatable us ks :=
  h.rec (fun hs hl hf hn ha _ hw hj ↦ restatable_mk hs hl hf hn ha hj hw) joinable_nil
    (fun hk ht hl _ h ↦ joinable_arrays hk ht hl h)
      (fun hk ht hn hw _ h ↦ joinable_table hk ht hn hw h)
    fun hk ht ho hb _ he hw _ hq h ↦ joinable_subquery hk ht ho hb hq he hw h

/-- The tokens of a query with joins of the kinds `ks` that is printed without changing what it
says. -/
structure Conjoined (ts : List Token) (ks : List Text) : Prop where
  steady : ∀ t ∈ ts, Steady t
  members : ∀ t ∈ ts, t.kind ≠ .membership
  apart : PointsApart none ts
  joined : Joined (inked ts) ks

theorem Conjoined.sited (h : Conjoined ts ks) (hl : Lexed ts) : Sited ts [] where
  material := ⟨fun t ht ↦ ⟨hl.lexical t ht, h.steady t ht⟩, h.apart⟩
  members := h.members
  comments := nofun
  lexed := by rwa [List.append_nil]

/-- The joins of a query are read in order, and again from its printed text. -/
theorem parse_print_joins {s : Text} (hs : tokens? s = .ok ts) (h : Conjoined ts ks) :
    ∃ q, parse s = .ok q ∧ q.joins.map (·.kind) = ks ∧ parse q.print = .ok q := by
  obtain ⟨rfl, hl⟩ := tokens?_eq_ok_iff.1 hs
  obtain ⟨q, hq, hkinds⟩ := h.joined.restatable ts [] rfl (h.sited hl) rfl
  obtain ⟨ps, htext, -, hparse, hrelaid⟩ := hq.printed [] (List.forall_mem_nil _)
  have hrel := hrelaid (.nil (z := []) rfl)
  rw [List.append_nil, List.append_nil] at hrel
  refine ⟨q, (parse_textOf hl).trans hq.parse, hkinds, ?_⟩
  rw [Query.print, htext, List.nil_append, parse_textOf (hrel.lexed hl)]
  simpa using hparse [] (List.forall_mem_nil _)

theorem parse_print_joins_nested :
    ∃ q, parse "SELECT a FROM t x Array  Join c, d ANY LEFT JOIN (SELECT g FROM u JOIN v USING (k, l)) AS w ON a = g WHERE a" =
      .ok q ∧ q.joins.map (·.kind) = ["array join".toList, "any left join".toList] ∧
          parse q.print = .ok q := by
  let gap : Token := ⟨.blank, " "⟩
  let word : String → Token := fun w ↦ ⟨.identifier, w.toList⟩
  let key : String → Token := fun w ↦ ⟨.clause, w.toList⟩
  let opening : Token := ⟨.opening, "("⟩
  let closing : Token := ⟨.closing, ")"⟩
  let equals : Token := ⟨.operator, "="⟩
  let tokens := [key "SELECT", gap, word "a", gap, key "FROM", gap, word "t", gap, word "x", gap,
    ⟨.join, "Array  Join"⟩, gap, word "c", comma, gap, word "d", gap, ⟨.join, "ANY LEFT JOIN"⟩, gap,
    opening, key "SELECT", gap, word "g", gap, key "FROM", gap, word "u", gap, ⟨.join, "JOIN"⟩, gap,
    word "v", gap, ⟨.joinConstraint, "USING"⟩, gap, opening, word "k", comma, gap, word "l",
    closing, closing, gap, word "AS", gap, word "w", gap, ⟨.joinConstraint, "ON"⟩, gap, word "a",
    gap, equals, gap, word "g", gap, key "WHERE", gap, word "a"]
  have hs : tokens? "SELECT a FROM t x Array  Join c, d ANY LEFT JOIN (SELECT g FROM u JOIN v USING (k, l)) AS w ON a = g WHERE a" =
      .ok tokens := tokens?_eq_ok_iff.2 ⟨by decide +kernel, by decide +kernel⟩
  let columns := [⟨.joinConstraint, "USING"⟩, opening, word "k", comma, word "l", closing]
  let predicate := [word "AS", word "w", ⟨.joinConstraint, "ON"⟩, word "a", equals, word "g"]
  let body := key "SELECT" :: ([word "g"] ++ key "FROM" :: ([word "u"] ++ [] ++
    ((⟨.join, "JOIN"⟩ :: ([word "v"] ++ columns ++ [])) ++ [])))
  let joins := ⟨.join, "Array  Join"⟩ ::
    (commaList [word "c"] [[word "d"]] ++ (⟨.join, "ANY LEFT JOIN"⟩ ::
    opening :: (body ++ closing :: (predicate ++ []))))
  have hname : ∀ w, IsName [word w] := fun w ↦ ⟨word w, [], rfl, by simp [word]⟩
  have hlist : ∀ x ys, (∀ y ∈ x :: ys, IsEntry y) → IsList (commaList x ys) :=
    fun x ys h ↦ ⟨x, ys, rfl, h⟩
  have hcolumns : IsTail columns :=
    ⟨[], _, rfl, .none, .using (by decide) rfl ⟨word "k", [word "l"], rfl, by decide⟩ rfl⟩
  have hpredicate : IsTail predicate :=
    ⟨[word "AS", word "w"], _, rfl, .named (by decide) rfl, .on (by decide) (by decide)⟩
  have hbody : Joined body ["join".toList] :=
    .mk (by decide) (hlist [word "g"] [] (by decide)) (by decide) (hname "u") .none
      (.table rfl (by decide) (hname "v") hcolumns .nil) .none
  have hjoins : Joins joins ["array join".toList, "any left join".toList] :=
    .arrays rfl (by decide) (hlist [word "c"] [[word "d"]] (by decide))
      (.subquery rfl (by decide) rfl (by decide) hbody rfl hpredicate .nil)
  have hjoined : Joined (key "SELECT" :: ([word "a"] ++ key "FROM" :: ([word "t"] ++ [word "x"] ++
      (joins ++ [key "WHERE", word "a"])))) ["array join".toList, "any left join".toList] :=
    .mk (by decide) (hlist [word "a"] [] (by decide)) (by decide) (hname "t") (.bare rfl) hjoins
      (.some (by decide) (by decide))
  exact parse_print_joins hs ⟨by decide, by decide, by decide, hjoined⟩

end QueryTemplate
