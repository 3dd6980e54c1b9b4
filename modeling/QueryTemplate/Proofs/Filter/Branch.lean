import QueryTemplate.Proofs.Filter.Union
namespace QueryTemplate

open Token Grammar

variable {p f o e : Token} {a b ts us gs body rest : List Token} {s : Text} {statements : List Text}

theorem openingSource?_eq (hf : isClause "from" f = true) (hg : ∀ g ∈ gs, g.isBlank = true)
    (ho : o.isOpenParen = true) (ts : List Token) :
    openingSource? (f :: (gs ++ o :: ts)) = some (f :: gs ++ [o], ts) := by
  simp only [isClause, Bool.and_eq_true, decide_eq_true_eq] at hf
  have hfb : f.isBlank = false := by simp [Token.isBlank, hf.1]
  have hob : o.isBlank = false := (isBlank_of_isOpenParen ho).2.2.1
  have hstart : (f :: (gs ++ o :: ts)).dropWhile isBlank = f :: (gs ++ o :: ts) := by
    rw [List.dropWhile_cons_of_neg (by simp [hfb])]
  have hnext : (gs ++ o :: ts).dropWhile isBlank = o :: ts := by
    rw [List.dropWhile_append_of_pos hg, List.dropWhile_cons_of_neg (by simp [hob])]
  have hgap : (gs ++ o :: ts).takeWhile isBlank = gs := by
    rw [List.takeWhile_append_of_pos hg, List.takeWhile_cons_of_neg (by simp [hob]), List.append_nil]
  rw [openingSource?, hstart]
  simp [hnext, hgap, hf.2, ho, hfb]

/-- A filter is put into each statement between the parentheses after `FROM`. -/
theorem injectTimeFilter_eq (hl : Lexed (f :: (gs ++ o :: (body ++ e :: rest)))) (hf : isClause "from" f = true)
    (hg : ∀ g ∈ gs, g.isBlank = true) (ho : o.isOpenParen = true) (hb : Balanced body)
    (he : e.isCloseParen = true) (hc : ∀ t ∈ body, t.kind ≠ .comment) (p : Token) :
    injectTimeFilter (textOf (f :: (gs ++ o :: (body ++ e :: rest)))) p.text =
      .ok (textOf (f :: (gs ++ o :: (unite ((splitOutside isUnionAll body).map (withFilter p)) ++ e :: rest)))) := by
  have hbody : Lexed body := Lexed.left hl.tail.suffix.tail (.inl he)
  have hparts : (splitOutside isUnionAll body).map (filterTokens p.text) =
      (splitOutside isUnionAll body).map (textOf ∘ withFilter p) := by
    refine List.map_congr_left fun b hm ↦ ?_
    have hlb := (lexed_of_mem_splitOutside (fun t ht ↦ ⟨.inr (.inr ht), after_of_kind (kind_of_isUnionAll t ht).1⟩)
      hbody b hm).1
    exact filterTokens_eq hlb (fun t ht ↦ hc t ((sublist_of_mem_splitOutside hm).subset ht)) p
  rw [injectTimeFilter, tokens?_eq_ok_iff.2 ⟨rfl, hl⟩, Except.bind, openingSource?_eq hf hg ho]
  simp only [group, closing?_append hb he, Except.map, hparts]
  have hclose : e.text = [')'] := (isBlank_of_isCloseParen he).2.1
  simp [textOf_unite, hclose]

/-- What stands before the parenthesis of a source is read alike before other statements in it. -/
theorem Lexed.exchange_body (hl : Lexed (f :: (gs ++ o :: (body ++ e :: rest)))) (ho : o.isOpenParen = true)
    (he : e.isCloseParen = true) (hp : IsFilter p) (hs : ∀ b ∈ (splitOutside isUnionAll body).dropLast, Seamed b)
    (hc : ∀ t ∈ body, t.kind ≠ .comment) :
    Lexed (f :: (gs ++ o :: (unite ((splitOutside isUnionAll body).map (withFilter p)) ++ e :: rest))) := by
  have hu := unites_splitOutside body
  have hbody := hu.lexed_unite hl.tail.suffix.tail he hc hp hs
  have hlead := leads_nil_iff.2 hl
  rw [← List.cons_append, leads_append] at hlead
  rw [← List.cons_append, ← leads_nil_iff, leads_append]
  refine ⟨?_, readBefore_of_isOpenParen ho _, leads_nil_iff.2 hbody⟩
  have hlead := hlead.1
  simp only [textOf_cons, List.append_nil] at hlead ⊢
  refine hlead.fence (.of_isOpenParen ho _) (.of_isOpenParen ho _) (.inl ?_) fun _ hn ↦ ?_
  · rw [(isBlank_of_isOpenParen ho).2.1]
    rfl
  · refine commentEnd_opener (by simp [isOpener, ho]) (hu.commentEnd_unite_append he hp (commentEnd_of_append hn))

/-- A statement whose filter would be set off from what follows it. -/
def SetOff (b : Text) : Prop := ∃ ts, tokens? b = .ok ts ∧ Seamed ts

theorem setOff_textOf (h : Lexed ts) : SetOff (textOf ts) ↔ Seamed ts := by
  constructor
  · rintro ⟨us, hus, hs⟩
    rwa [Except.ok.inj ((tokens?_eq_ok_iff.2 ⟨rfl, h⟩).symm.trans hus)]
  · exact fun hs ↦ ⟨ts, tokens?_eq_ok_iff.2 ⟨rfl, h⟩, hs⟩

/-- The token of the time filter that a macro puts on its source. -/
def Aggregation.filterToken (m : Aggregation) : Token := ⟨.placeholder, m.timeFilter⟩

theorem isFilter_filterToken (m : Aggregation) : IsFilter m.filterToken := by
  cases m
  case columnsMs => exact isFilter_timeFilterMs
  all_goals exact isFilter_timeFilter

/-- No name goes on after the time filter of a macro. -/
theorem stops_timeFilter (m : Aggregation) {r : Text} (h : m.filterToken.ReadBefore r) :
    Text.Stops isPlaceholderChar r := by
  cases m
  case columnsMs => exact stops_of_placeholder (by decide) h
  all_goals exact stops_of_placeholder (by decide) h

/-- The statements of a union are texts of their own. -/
theorem lexed_statements (hl : Lexed body) (hc : ∀ t ∈ body, t.kind ≠ .comment) :
    ∀ b ∈ splitOutside isUnionAll body, Lexed b ∧ ∀ t ∈ b, t.kind ≠ .comment := by
  intro b hb
  refine ⟨(lexed_of_mem_splitOutside isCut_of_isUnionAll hl b hb).1, fun t ht ↦ ?_⟩
  exact hc t ((sublist_of_mem_splitOutside hb).subset ht)

theorem splitUnionAll_textOf (hl : Lexed body) :
    splitUnionAll (textOf body) = .ok ((splitOutside isUnionAll body).map textOf) := by
  rw [splitUnionAll, splitText, tokens?_eq_ok_iff.2 ⟨rfl, hl⟩]
  rfl

/-- A text is read as a statement with a filter. -/
def IsFiltered (filter part b : Text) : Prop := ∃ y, filterStatement b filter = .ok y ∧ SameTokens part y

theorem isFiltered_textOf (hl : Lexed a) (hc : ∀ t ∈ a, t.kind ≠ .comment) (hp : IsFilter p) (hx : Lexed b) :
    IsFiltered p.text (textOf b) (textOf a) ↔ inked b = inked (withFilter p a) := by
  have hy := filterStatement_textOf hl hc p
  have hw := tokens?_eq_ok_iff.2 ⟨rfl, lexed_withFilter hl hc hp⟩
  have hb := tokens?_eq_ok_iff.2 ⟨rfl, hx⟩
  constructor
  · rintro ⟨y, hy', xs, ys, hxs, hys, e⟩
    obtain rfl := Except.ok.inj (hy.symm.trans hy')
    rwa [Except.ok.inj (hb.symm.trans hxs), Except.ok.inj (hw.symm.trans hys)]
  · exact fun e ↦ ⟨_, hy, _, _, hb, hw, e⟩

/-- A text of filtered statements is cut into those. -/
theorem filtered_statements (hb : Balanced body) (hl : Lexed body) (hc : ∀ t ∈ body, t.kind ≠ .comment)
    (hp : IsFilter p) (hu : Lexed (unite ((splitOutside isUnionAll body).map (withFilter p)))) :
    let us := unite ((splitOutside isUnionAll body).map (withFilter p))
    Balanced us ∧ ∃ parts, splitUnionAll (textOf us) = .ok parts ∧
      List.Forall₂ (IsFiltered p.text) parts ((splitOutside isUnionAll body).map textOf) := by
  intro us
  have hne : (splitOutside isUnionAll body).map (withFilter p) ≠ [] := by simp [splitOutside_ne_nil]
  have hparts : ∀ b ∈ (splitOutside isUnionAll body).map (withFilter p), Balanced b ∧ Covered isUnionAll 0 b := by
    refine List.forall_mem_map.2 fun b hm ↦ ?_
    obtain ⟨hb, hcov⟩ := balanced_of_mem_splitOutside kind_of_isUnionAll hb b hm
    exact hp.balanced_withFilter hb hcov
  obtain ⟨hsplit, hbal⟩ := splitOutside_unite hne hparts
  refine ⟨hbal, _, splitUnionAll_textOf hu, ?_⟩
  rw [hsplit, List.map_map, List.forall₂_map_left_iff, List.forall₂_map_right_iff, List.forall₂_same]
  intro b hm
  obtain ⟨hlb, hcb⟩ := lexed_statements hl hc b hm
  exact (isFiltered_textOf hlb hcb hp (lexed_withFilter hlb hcb hp)).2 rfl

/-- A text that is read as the filtered statements is made of statements that are set off. -/
theorem seamed_of_filtered {parts : List Text} (hl : Lexed body) (hc : ∀ t ∈ body, t.kind ≠ .comment)
    (hp : IsFilter p) (hd : ∀ s, p.ReadBefore s → Text.Stops isPlaceholderChar s) (hus : Lexed us)
    (e : textOf us = textOf (unite ((splitOutside isUnionAll body).map (withFilter p))))
    (hparts : splitUnionAll (textOf us) = .ok parts)
    (h : List.Forall₂ (IsFiltered p.text) parts ((splitOutside isUnionAll body).map textOf)) :
    ∀ b ∈ (splitOutside isUnionAll body).dropLast, Seamed b := by
  obtain rfl := Except.ok.inj ((splitUnionAll_textOf hus).symm.trans hparts)
  rw [List.forall₂_map_left_iff, List.forall₂_map_right_iff] at h
  have hread := ((List.forall₂_and_left _ _).2
    ⟨fun x hx ↦ (lexed_of_mem_splitOutside isCut_of_isUnionAll hus x hx).1, h⟩).flip
  have hread := ((List.forall₂_and_left _ _).2 ⟨lexed_statements hl hc, hread⟩).flip
  refine (unites_splitOutside body).seamed_of_unite hl hc hp hd hus e (unites_splitOutside us) (hread.imp ?_)
  rintro x b ⟨⟨hb, hbc⟩, hx, hxb⟩
  exact (isFiltered_textOf hb hbc hp hx).1 hxb

/-- The time filter of a macro is put into every statement of a union in `FROM`, and the source is read as the
filtered statements, exactly if each statement but the last is set off from the `UNION ALL` behind it. -/
theorem branches_filtered_iff (m : Aggregation) (hts : tokens? s = .ok (f :: (gs ++ o :: (body ++ e :: rest))))
    (hf : isClause "from" f = true) (hg : ∀ g ∈ gs, g.isBlank = true) (ho : o.isOpenParen = true)
    (hb : Balanced body) (he : e.isCloseParen = true)
    (hc : ∀ t ∈ f :: (gs ++ o :: (body ++ e :: rest)), t.kind ≠ .comment)
    (hu : splitUnionAll (textOf body) = .ok statements) :
    ∃ out, injectTimeFilter s m.timeFilter = .ok out ∧
      ((∃ us parts, tokens? out = .ok (f :: (gs ++ o :: (us ++ e :: rest))) ∧ Balanced us ∧
          splitUnionAll (textOf us) = .ok parts ∧ List.Forall₂ (IsFiltered m.timeFilter) parts statements) ↔
        ∀ b ∈ statements.dropLast, SetOff b) := by
  obtain ⟨rfl, hl⟩ := tokens?_eq_ok_iff.1 hts
  have hp := isFilter_filterToken m
  have hcb : ∀ t ∈ body, t.kind ≠ .comment := fun t ht ↦ hc t (by simp [ht])
  have hbody : Lexed body := Lexed.left hl.tail.suffix.tail (.inl he)
  obtain rfl := Except.ok.inj ((splitUnionAll_textOf hbody).symm.trans hu)
  have hset : (∀ b ∈ ((splitOutside isUnionAll body).map textOf).dropLast, SetOff b) ↔
      ∀ b ∈ (splitOutside isUnionAll body).dropLast, Seamed b := by
    rw [← List.map_dropLast, List.forall_mem_map]
    exact forall₂_congr fun b hb ↦ setOff_textOf (lexed_statements hbody hcb b (List.dropLast_subset _ hb)).1
  refine ⟨_, injectTimeFilter_eq hl hf hg ho hb he hcb m.filterToken, ?_⟩
  rw [hset]
  constructor
  · rintro ⟨us, parts, hout, -, hparts, hsame⟩
    obtain ⟨htext, hlo⟩ := tokens?_eq_ok_iff.1 hout
    refine seamed_of_filtered hbody hcb hp (fun _ ↦ stops_timeFilter m) ?_ (by simpa using htext) hparts hsame
    exact Lexed.left hlo.tail.suffix.tail (.inl he)
  · intro hs
    have hlo := hl.exchange_body ho he hp hs hcb
    obtain ⟨hbal, parts, hparts, hsame⟩ :=
      filtered_statements hb hbody hcb hp (Lexed.left hlo.tail.suffix.tail (.inl he))
    exact ⟨_, parts, tokens?_eq_ok_iff.2 ⟨rfl, hlo⟩, hbal, hparts, hsame⟩

theorem branches_filtered_iff_space :
    ∃ out us parts rest, injectTimeFilter "FROM (SELECT f(a) UNION ALL SELECT b) t" "$timeFilter" = .ok out ∧
      tokens? out = .ok (⟨.clause, "FROM"⟩ :: ([space] ++ ⟨.opening, "("⟩ :: (us ++ ⟨.closing, ")"⟩ :: rest))) ∧
      splitUnionAll (textOf us) = .ok parts ∧
      List.Forall₂ (IsFiltered "$timeFilter") parts ["SELECT f(a) ", " SELECT b"] := by
  have hts : tokens? "FROM (SELECT f(a) UNION ALL SELECT b) t" = .ok (⟨.clause, "FROM"⟩ :: ([space] ++ ⟨.opening, "("⟩ ::
      ((scan "SELECT f(a) UNION ALL SELECT b").tokens ++ ⟨.closing, ")"⟩ :: [space, ⟨.identifier, "t"⟩]))) :=
    toOption_eq_some.1 (by decide +kernel)
  have hu : splitUnionAll (textOf (scan "SELECT f(a) UNION ALL SELECT b").tokens) =
      .ok ["SELECT f(a) ", " SELECT b"] := toOption_eq_some.1 (by decide +kernel)
  have hset : ∀ b ∈ ["SELECT f(a) ".toList, " SELECT b"].dropLast, SetOff b := by
    refine List.forall_mem_singleton.2 ⟨(scan "SELECT f(a) ").tokens, toOption_eq_some.1 (by decide +kernel), ?_⟩
    decide +kernel
  obtain ⟨out, hout, hiff⟩ := branches_filtered_iff .columns hts (by decide) (by decide) (by decide) (by decide +kernel)
    (by decide) (by decide +kernel) hu
  obtain ⟨us, parts, hus, -, hparts, hsame⟩ := hiff.2 hset
  exact ⟨out, us, parts, _, hout, hus, hparts, hsame⟩

end QueryTemplate
