import QueryTemplate.Proofs.Query.Conserve
namespace QueryTemplate

open Token Grammar Fragment

variable {lines even : Bool} {w : Query → Int} {C : Query → Prop} {x rest : Text} {n : Int}
    {t : Token} {d d' : Draft}
  {ts us : List Token}

/-- What is known of what fewer than `n` tokens are read as: a query, the arguments of a macro and
the right side of `IN`. -/
structure Inner (lines even : Bool) (w : Query → Int) (C : Query → Prop) (n : Nat) : Prop where
  query : ∀ {b q}, b.length < n → Legible lines b → Closes even 0 b → parseTokens [] b {} = .ok q →
    C q ∧ w q = weigh b
  args : ∀ {b q}, b.length < n → Legible lines b → Closes even 0 b → parseTokens [] b {} = .ok q →
    (∀ p ∈ (CallArgs.ofQuery q).pieces, p.Fits lines (Allowed even) C) ∧
      amounts lines w (CallArgs.ofQuery q).pieces = weigh b
  member : ∀ {b q}, b.length < n → Legible false b → Balanced b → parseTokens [] b {} = .ok q →
    tally lines (membershipText q) = some (0, false)

namespace Draft

/-- The tokens before `us` were read and what they add to a draft was added. -/
structure Onward (lines even : Bool) (w : Query → Int) (C : Query → Prop) (d : Draft)
    (ts : List Token) (d' : Draft) (us : List Token) : Prop where
  sound : d'.Sound lines even w C
  suffix : us <:+ ts
  closes : Closes even d'.fragment.depth us
  sum : d'.sum lines w + weigh us = d.sum lines w + weigh ts

/-- A token after which a text is not finished. -/
theorem Onward.token (h : d'.Sound lines even w C) (hs : d'.sum lines w = d.sum lines w + t.weight)
    (hd : d'.fragment.depth = d.fragment.depth + t.weight)
    (hc : Closes even d.fragment.depth (t :: ts)) :
    Onward lines even w C d (t :: ts) d' ts := by
  refine ⟨h, List.suffix_cons t ts, hd ▸ hc.tail, ?_⟩
  rw [hs, weigh_cons]
  omega

/-- A token before which a text is finished. -/
theorem Onward.flushed (h : d'.Sound lines even w C) (hs : d'.sum lines w = d.sum lines w)
    (hd : d'.fragment.depth = 0) (ht : t.weight = 0) (hz : Allowed even d.fragment.depth)
    (hc : Closes even d.fragment.depth (t :: ts)) :
    Onward lines even w C d (t :: ts) d' ts := by
  refine ⟨h, List.suffix_cons t ts, hd ▸ (hc.restart hz).skip_token ht, ?_⟩
  rw [hs, weigh_cons, ht, Int.zero_add]

theorem Onward.blanks (h : Onward lines even w C d ts d' us) :
    Onward lines even w C d ts d' (us.dropWhile isBlank) := by
  have e := List.takeWhile_append_dropWhile (p := isBlank) (l := us)
  have hb : weigh (us.takeWhile isBlank) = 0 := weigh_blanks (List.all_eq_true.1 List.all_takeWhile)
  have hc := h.closes
  have hw := congrArg weigh e
  rw [← e] at hc
  rw [weigh_append, hb, Int.zero_add] at hw
  exact ⟨h.sound, (List.dropWhile_suffix _).trans h.suffix, hc.skip hb, hw ▸ h.sum⟩

theorem fragment_comma (d : Draft) : d.comma.fragment = {} := by
  rw [comma]
  split
  · rw [push_fragment, flush_fragment]
  · exact d.flush_fragment

theorem onward_conjunction (h : d.Sound lines even w C) (ht : Lexical t)
    (hk : t.kind = .conjunction) (hc : Closes even d.fragment.depth (t :: ts)) :
    Onward lines even w C d (t :: ts) (d.conjunction t) ts := by
  have hw : t.weight = 0 := weight_of_kind (by simp [hk]) (by simp [hk])
  have hz : d.fragment.isBalanced = true → Allowed even d.fragment.depth :=
    fun hf ↦ hc.allowed (.inr (isBalanced_depth hf))
  obtain ⟨h₁, h₂⟩ := h.conjunction hz ht hk
  by_cases hf : d.fragment.isBalanced = true
  · refine .flushed h₁ (by rw [h₂, hw, Int.add_zero]) ?_ hw (hz hf) hc
    rw [conjunction, if_pos hf]
    change (d.flush.fragment.pushToken t).depth = 0
    rw [pushToken_depth, hw, flush_fragment]
    rfl
  · refine .token h₁ h₂ ?_ hc
    rw [conjunction, if_neg hf]
    exact pushToken_depth _ _

/-- Cuts without weight leave the parentheses to the runs between them. -/
theorem weigh_splitOutside {p : Token → Bool} (hp : ∀ t, p t = true → t.weight = 0)
    (ts : List Token) :
    ((splitOutside p ts).map weigh).sum = weigh ts := by
  have parts : ∀ ps : List (Token × List Token), (∀ a ∈ ps, p a.1 = true) →
      ((ps.map Prod.snd).map weigh).sum = weigh (ps.flatMap fun a ↦ a.1 :: a.2) := by
    intro ps h
    induction ps with
    | nil => rfl
    | cons a ps ih =>
      obtain ⟨ha, h⟩ := List.forall_mem_cons.1 h
      rw [List.map_cons, List.map_cons, List.sum_cons, ih h, List.flatMap_cons, List.cons_append,
        weigh_cons, weigh_append, hp _ ha, Int.zero_add]
  have ht := tokens_sections p 0 ts
  rw [Sections.tokens] at ht
  rw [splitOutside, Sections.runs, List.map_cons, List.sum_cons, parts _ (heading_of_mem_parts ts),
    ← weigh_append, ht]

theorem weight_of_isUnionAll (h : isUnionAll t = true) : t.weight = 0 :=
  weight_of_kind (kind_of_isUnionAll t h).1 (kind_of_isUnionAll t h).2

/-- The statements after `UNION ALL`. -/
theorem unions_tally {k : Nat} (hin : Inner lines even w C k) (hts : Legible lines ts)
    (hc : Closes even 0 ts) (hl : ts.length < k) {qs : List Query}
    (hq : ((splitOutside isUnionAll ts).mapM fun b ↦ parseTokens [] b {}) = .ok qs) :
    (∀ q ∈ qs, C q) ∧ (qs.map w).sum = weigh ts := by
  have runs : ∀ bs : List (List Token), (∀ b ∈ bs, b ∈ splitOutside isUnionAll ts) →
    ∀ qs : List Query,
      (bs.map fun b ↦ parseTokens [] b {}) = qs.map .ok → (∀ q ∈ qs, C q) ∧
          (qs.map w).sum = (bs.map weigh).sum := by
    intro bs
    induction bs with
    | nil =>
      intro _ qs h
      obtain rfl := List.map_eq_nil_iff.1 h.symm
      exact ⟨List.forall_mem_nil _, rfl⟩
    | cons b bs ih =>
      intro hbs qs h
      obtain ⟨hb, hbs⟩ := List.forall_mem_cons.1 hbs
      cases qs with
      | nil => cases h
      | cons q qs =>
        obtain ⟨hq, h⟩ := List.cons.inj h
        obtain ⟨h₁, h₂⟩ := ih hbs qs h
        have hlen := (sublist_of_mem_splitOutside hb).length_le
        have hclb : Closes even 0 b := by
          intro e
          obtain ⟨hp, d, hd, hr⟩ := hc e
          obtain rfl : d = 0 := by omega
          exact ⟨pointFree_within hp (isInfix_of_mem_splitOutside hb), 0, rfl,
            (balanced_of_mem_splitOutside kind_of_isUnionAll hr b hb).1⟩
        obtain ⟨h₃, h₄⟩ := hin.query (by omega) (hts.runs (fun t ht ↦ .inr (.inr ht)) hb) hclb hq
        refine ⟨List.forall_mem_cons.2 ⟨h₃, h₁⟩, ?_⟩
        rw [List.map_cons, List.map_cons, List.sum_cons, List.sum_cons, h₂, h₄]
  obtain ⟨h₁, h₂⟩ := runs _ (fun _ ↦ id) qs (mapM_eq_ok_iff.1 hq)
  exact ⟨h₁, h₂.trans (weigh_splitOutside (fun t ht ↦ weight_of_isUnionAll ht) ts)⟩

/-- Parentheses that are read as a whole. -/
structure Grouped (lines even : Bool) (n : Int) (ts b us : List Token) : Prop where
  legible : Legible lines b
  balanced : Balanced b
  inside : Closes even 0 b
  suffix : us <:+ ts
  outside : Closes even n us
  weigh : weigh us = weigh ts
  length : b.length < ts.length

theorem grouped (gs : List Token) {b : List Token} {o e : Token}
    (h : Legible lines (gs ++ o :: (b ++ e :: us))) (hc : Closes even n (gs ++ o :: (b ++ e :: us)))
    (hg : ∀ u ∈ gs, u.isBlank = true) (ho : o.isOpenParen = true) (he : e.isCloseParen = true)
    (hb : Balanced b) : Grouped lines even n (gs ++ o :: (b ++ e :: us)) b us where
  legible := by
    have hs : b ++ e :: us <:+ gs ++ o :: (b ++ e :: us) := ⟨gs ++ [o], by simp⟩
    exact (h.suffix hs).left (.inl he)
  balanced := hb
  inside := hc.body ⟨gs ++ [o], e :: us, by simp⟩ hb
  suffix := ⟨gs ++ o :: (b ++ [e]), by simp⟩
  outside := (hc.skip (weigh_blanks hg)).group ho he hb
  weigh := by rw [weigh_append, weigh_blanks hg, weigh_group ho he hb, Int.zero_add]
  length := by simp only [List.length_append, List.length_cons]; omega

theorem callGroup_eq_ok {name : Text} {p : List Token × List Token}
    (h : callGroup name rest ts = .ok p) :
    Balanced p.1 ∧ ∃ gs o e, ts = gs ++ o :: (p.1 ++ e :: p.2) ∧ (∀ u ∈ gs, u.isBlank = true) ∧
      o.isOpenParen = true ∧
      e.isCloseParen = true := by
  obtain ⟨q, hq, h'⟩ := ok_of_bind h
  obtain ⟨gs, rfl, hg⟩ := expectToken_eq_ok hq
  split at h'
  · obtain ⟨hb, e, he, hu⟩ := group_eq_ok h'
    exact ⟨hb, gs, q.1, e, by rw [hu], hg, ‹_›, he⟩
  · cases h'

theorem onward_call (hin : Inner lines even w C (t :: ts).length) (h : d.Sound lines even w C)
    (hts : Legible lines (t :: ts)) (hc : Closes even d.fragment.depth (t :: ts))
    (hk : t.kind = .aggregation) (hf : d.fragment.isBalanced = true) {p : List Token × List Token}
    (hp : callGroup t.text rest ts = .ok p) {q : Query} (hq : parseTokens [] p.1 {} = .ok q) :
    Onward lines even w C d (t :: ts) (d.flush.addCall t.text (.ofQuery q)) p.2 := by
  have hw : t.weight = 0 := weight_of_kind (by simp [hk]) (by simp [hk])
  have hz := hc.allowed (.inr (isBalanced_depth hf))
  have hc₀ := (hc.restart hz).skip_token hw
  obtain ⟨hb, gs, o, e, rfl, hg, ho, he⟩ := callGroup_eq_ok hp
  have hgr := grouped gs hts.tail hc₀ hg ho he hb
  obtain ⟨ha, hsum⟩ := hin.args (Nat.lt_succ_of_lt hgr.length) hgr.legible hgr.inside hq
  obtain ⟨h₁, h₂, -⟩ := h.flush hz
  obtain ⟨h₃, h₄⟩ := h₁.addCall (hts.lexical t List.mem_cons_self) hk ha
    (hsum.trans (weigh_of_balanced hb))
  refine ⟨h₃, hgr.suffix.trans (List.suffix_cons t _), ?_, ?_⟩
  · change Closes even d.flush.fragment.depth p.2
    rw [flush_fragment]
    exact hgr.outside
  · rw [h₄, h₂, hgr.weigh, weigh_cons, hw, Int.zero_add]

theorem onward_unions (hin : Inner lines even w C (t :: ts).length) (h : d.Sound lines even w C)
    (hts : Legible lines (t :: ts)) (hc : Closes even d.fragment.depth (t :: ts))
    (ht : isUnionAll t = true) (hf : d.fragment.isBalanced = true) (hu : d.query.unions = none)
    {qs : List Query}
    (hq : ((splitOutside isUnionAll ts).mapM fun b ↦ parseTokens [] b {}) = .ok qs) :
    Onward lines even w C d (t :: ts) { d.flush with query :=
  { d.flush.query with unions := some qs } } [] := by
  have hw := weight_of_isUnionAll ht
  have hz := hc.allowed (.inr (isBalanced_depth hf))
  have hc₀ := (hc.restart hz).skip_token hw
  obtain ⟨hC, hsum⟩ := unions_tally hin hts.tail hc₀ (Nat.lt_succ_self _) hq
  obtain ⟨h₁, h₂, -⟩ := h.flush hz
  obtain ⟨h₃, h₄⟩ := h₁.setUnions (d.flush_rest.2.trans hu) hC
  refine ⟨h₃, List.nil_suffix, ?_, ?_⟩
  · change Closes even d.flush.fragment.depth []
    rw [flush_fragment]
    exact fun e ↦ ⟨rfl, 0, rfl, rfl⟩
  · rw [h₄, h₂, hsum, weigh_cons, hw, weigh_nil]
    omega

theorem all_source_of_sourceIsEmpty (h : d.sourceIsEmpty = true)
    (hq : ∀ r, d.query.source ≠ some (.subquery r)) :
    d.query.source.all fun s ↦ s = .table [] := by
  rw [sourceIsEmpty, Bool.and_eq_true] at h
  cases hs : d.query.source with
  | none => rfl
  | some s =>
    cases s with
    | subquery r => exact absurd hs (hq r)
    | table xs => simpa [Query.items, hs] using h.2

theorem onward_tableCall (h : d.Sound lines even w C) (hts : Legible lines (t :: ts))
    (hc : Closes even d.fragment.depth (t :: ts)) (ht : t.isOpenParen = true)
    {p : List Token × List Token} (hp : group rest ts = .ok p) :
    Onward lines even w C d (t :: ts) (d.pushText ('(' :: textOf p.1 ++ ")")) p.2 := by
  obtain ⟨hb, e, he, rfl⟩ := group_eq_ok hp
  have hgr := grouped [] hts hc (List.forall_mem_nil _) ht he hb
  have htext := tally_parenthesized hts.tail he hb
  obtain ⟨h₁, h₂⟩ := h.hold (h.carries.fragment.pushText htext (by simp [Delimited]; decide)
    (by simp))
  refine ⟨h₁, hgr.suffix, hgr.outside, ?_⟩
  rw [show weigh (t :: (p.1 ++ e :: p.2)) = weigh p.2 from hgr.weigh.symm]
  refine congrArg (· + _) (h₂.trans ?_)
  have e : (d.fragment.pushText ('(' :: textOf p.1 ++ ")")).depth = d.fragment.depth := rfl
  rw [e, Int.sub_self, Int.add_zero]

theorem onward_subquery (hin : Inner lines even w C (t :: ts).length) (h : d.Sound lines even w C)
    (hts : Legible lines (t :: ts)) (hc : Closes even d.fragment.depth (t :: ts))
    (ht : t.isOpenParen = true) (hd : d.clause = .source) (hs : d.sourceIsEmpty = true)
    {p : List Token × List Token} (hp : group rest ts = .ok p) {q : Query}
    (hq : parseTokens [] p.1 {} = .ok q) :
    Onward lines even w C d (t :: ts) (d.setSubquery q) p.2 := by
  obtain ⟨hb, e, he, rfl⟩ := group_eq_ok hp
  have hgr := grouped [] hts hc (List.forall_mem_nil _) ht he hb
  obtain ⟨hC, hw⟩ := hin.query (Nat.lt_of_lt_of_le hgr.length (by simp)) hgr.legible hgr.inside hq
  obtain ⟨h₁, h₂⟩ := h.setSubquery (all_source_of_sourceIsEmpty hs (h.carries.shaped.source hd)) hC
  refine ⟨h₁, hgr.suffix, hgr.outside, ?_⟩
  rw [h₂, hw, weigh_of_balanced hb, Int.add_zero]
  exact congrArg (_ + ·) hgr.weigh

theorem onward_member (hin : Inner lines even w C (t :: ts).length) (h : d.Sound lines even w C)
    (hts : Legible lines (t :: ts)) (hc : Closes even d.fragment.depth (t :: ts))
    (hk : t.kind = .membership) {p : List Token × List Token} (hp : groupAhead ts = some p)
    {q : Query} (hq : parseTokens [] p.1 {} = .ok q) :
    Onward lines even w C d (t :: ts) ((d.pushToken t).pushText (membershipText q)) p.2 := by
  have hw : t.weight = 0 := weight_of_kind (by simp [hk]) (by simp [hk])
  have hcode := hts.member (a := p.2) hk hp
  obtain ⟨gs, o, e, rfl, hg, ho, he, hb⟩ := groupAhead_eq_some hp
  have hgr := grouped gs hts.tail (hc.skip_token hw) hg ho he hb
  have htext := hin.member (Nat.lt_succ_of_lt hgr.length) hcode hb hq
  obtain ⟨s, hs⟩ := exists_membershipText q
  rw [hs] at htext ⊢
  obtain ⟨h₁, h₂⟩ := h.pushToken (hts.lexical t List.mem_cons_self) (by simp [hk]) (by simp [hk])
  obtain ⟨h₃, h₄⟩ := h₁.hold (h₁.carries.fragment.pushText htext (by simp [Delimited]; decide)
    (by simp))
  have hdepth : (d.pushToken t).fragment.depth = d.fragment.depth := by
    change (d.fragment.pushToken t).depth = _
    rw [pushToken_depth, hw, Int.add_zero]
  have e : ((d.pushToken t).fragment.pushText (' ' :: s ++ ")")).depth = d.fragment.depth := hdepth
  refine ⟨h₃, hgr.suffix.trans (List.suffix_cons t _), ?_, ?_⟩
  · change Closes even ((d.pushToken t).fragment.pushText (' ' :: s ++ ")")).depth p.2
    rw [e]
    exact hgr.outside
  · rw [e, hdepth, Int.sub_self, Int.add_zero, h₂, hw, Int.add_zero] at h₄
    rw [weigh_cons, hw, Int.zero_add, ← hgr.weigh]
    exact congrArg (· + _) h₄

theorem onward_join {s : Source Query} {vs : List Token} {p : Join Query × List Token}
    (h : d.Sound lines even w C) (hts : Legible lines (t :: ts))
    (hc : Closes even d.fragment.depth (t :: ts)) (hk : t.kind = .join)
    (hf : d.fragment.isBalanced = true) (hs : ∀ p ∈ s.pieces, p.Fits lines (Allowed even) C)
    (hvs : vs <:+ ts) (hsum : amounts lines w s.pieces + weigh vs = weigh ts)
    (hcv : Closes even 0 vs) (hkind : p.1.kind = t.keyword) (hsource : p.1.source = s)
    (htail : TailTallied lines even vs p) (hj : even = true → p.1.AliasesClose) :
    Onward lines even w C d (t :: ts) (d.flush.addJoin p.1) p.2 := by
  have hw : t.weight = 0 := weight_of_kind (by simp [hk]) (by simp [hk])
  have hz := hc.allowed (.inr (isBalanced_depth hf))
  have hwords : Allowed even (p.1.aliases.map (amount lines)).sum := by
    intro e
    have hcount : p.1.aliases.count ['('] = p.1.aliases.count [')'] := hj e
    rw [sum_words htail.aliases, hcount, Int.sub_self]
  obtain ⟨hp, hcu⟩ := htail.closes hcv hwords
  have hpieces : ∀ p' ∈ p.1.pieces, p'.Fits lines (Allowed even) C := by
    intro p' hm
    rw [Join.pieces, hsource] at hm
    rcases List.mem_append.1 hm with hm | hm
    · exact hs p' hm
    · obtain ⟨x, hx, rfl⟩ := List.mem_map.1 hm
      obtain ⟨n, hn⟩ := htail.predicates x hx
      exact ⟨n, amount_of_tally hn ▸ hp x hx, hn⟩
  obtain ⟨h₁, h₂, -⟩ := h.flush hz
  obtain ⟨h₃, h₄⟩ := h₁.addJoin ⟨⟨t, hkind.symm, hts.lexical t List.mem_cons_self, hk⟩,
    htail.aliases, htail.columns⟩ hpieces
  refine ⟨h₃, (htail.suffix.trans hvs).trans (List.suffix_cons t ts), ?_, ?_⟩
  · change Closes even d.flush.fragment.depth p.2
    rw [flush_fragment]
    exact hcu
  · have ht := htail.total
    rw [h₄, h₂, Join.pieces, hsource, amounts_append, amounts_texts, weigh_cons, hw]
    omega

theorem onward_step (hin : Inner lines even w C (t :: ts).length) (h : d.Sound lines even w C)
    (hts : Legible lines (t :: ts)) (hc : Closes even d.fragment.depth (t :: ts))
    (hs : d.step rest t ts = .ok (d', us))
    (hj : ∀ j ∈ d'.query.joins, even = true → j.AliasesClose) :
    Onward lines even w C d (t :: ts) d' us := by
  have hx := hts.lexical t List.mem_cons_self
  have balanced : d.fragment.isBalanced = true → Allowed even d.fragment.depth :=
    fun hf ↦ hc.allowed (.inr (isBalanced_depth hf))
  have inside : d.fragment.isBalanced = true → t.kind = .join → Closes even 0 ts := fun hf hk ↦
    (hc.restart (balanced hf)).skip_token (weight_of_kind (by simp [hk]) (by simp [hk]))
  have last : ∀ {D : Draft} {j}, d' = D.addJoin j → even = true → j.AliasesClose := by
    rintro D j rfl
    exact hj j (by simp [addJoin])
  cases stepped_of_step hs with
  | skip hk =>
    have hw : t.weight = 0 := weight_of_kind (by simp [hk]) (by simp [hk])
    exact .token h (by rw [hw, Int.add_zero]) (by rw [hw, Int.add_zero]) hc
  | token hb hk =>
    obtain ⟨h₁, h₂⟩ := h.pushToken hx hb hk
    exact .token h₁ h₂ (pushToken_depth _ _) hc
  | comment hk =>
    have hw : t.weight = 0 := weight_of_kind (by simp [hk]) (by simp [hk])
    obtain ⟨h₁, h₂⟩ := h.hold (h.carries.fragment.pushComment hx hk fun e ↦
      hts.line e t List.mem_cons_self)
    have e : (d.fragment.pushComment t).depth = d.fragment.depth := rfl
    exact .token h₁ (h₂.trans (by rw [e, hw, Int.sub_self])) (by rw [hw, Int.add_zero]; rfl) hc
  | clause hk hf hw hn =>
    obtain ⟨h₁, h₂⟩ := h.openClause (balanced hf) (List.mem_of_find?_eq_some hw) hn
    refine .flushed h₁ h₂ ?_ (weight_of_kind (by simp [hk]) (by simp [hk])) (balanced hf) hc
    change d.flush.fragment.depth = 0
    rw [flush_fragment]
  | comma hk hf =>
    obtain ⟨h₁, h₂⟩ := h.comma (balanced hf)
    exact .flushed h₁ h₂ (by rw [fragment_comma]) (weight_of_isComma hk) (balanced hf) hc
  | conjunction hk => exact onward_conjunction h hx hk hc
  | unions hk hf hn hq => exact onward_unions hin h hts hc hk hf hn hq
  | call hk hf hp hq => exact onward_call hin h hts hc hk hf hp hq
  | tableCall hk hp => exact onward_tableCall h hts hc hk hp
  | subquery hk hcl he hp hq => exact onward_subquery hin h hts hc hk hcl he hp hq
  | member hk hp hq => exact onward_member hin h hts hc hk hp hq
  | memberToken hk =>
    obtain ⟨h₁, h₂⟩ := h.pushToken hx (by simp [hk]) (by simp [hk])
    exact (Onward.token h₁ h₂ (pushToken_depth _ _) hc).blanks
  | @arrays xs us hk hf hp =>
    have hsrc : Parted lines even 0 ts (xs, us) := readSource_tally even hp hts.tail
    obtain ⟨h₁, h₂⟩ := hsrc.closes (inside hf hk)
    refine onward_join (s := .table xs)
      (p := (_, us)) h hts hc hk hf ?_ hsrc.suffix ?_ h₂ rfl rfl ?_ fun _ ↦ rfl
    · intro p hp
      obtain ⟨x, hx, rfl⟩ := List.mem_map.1 hp
      obtain ⟨n, hn⟩ := hsrc.tallied x hx
      exact ⟨n, amount_of_tally hn ▸ h₁ x hx, hn⟩
    · have ht := hsrc.total
      rw [Int.zero_add] at ht
      rw [Source.pieces, amounts_texts, ht]
    · exact ⟨List.suffix_rfl, List.forall_mem_nil _, List.forall_mem_nil _, List.forall_mem_nil _,
        by simp,
        fun hc _ ↦ ⟨List.forall_mem_nil _, hc⟩⟩
  | @table x us p hk hf hp hr =>
    obtain ⟨h₁, n, h₂, h₃, h₄⟩ := readSource_tally even hp hts.tail
    obtain ⟨h₅, h₆⟩ := h₄ (inside hf hk)
    obtain ⟨hkind, hsource, htail⟩ := readTail_tally even hr (hts.tail.suffix h₁)
    refine onward_join h hts hc hk hf ?_ h₁ ?_ h₆ hkind hsource htail (last rfl)
    · exact List.forall_mem_singleton.2 ⟨n, h₅, h₂⟩
    · have ha : amounts lines w (Source.pieces (.table [x])) = n := by
        simp [Source.pieces, Piece.amount, amount_of_tally h₂]
      rw [ha, h₃]
  | @joinQuery b us q p hk hf hp hq hr =>
    obtain ⟨hb, gs, o, c, rfl, hg, ho, he⟩ := readSource_tally even hp hts.tail
    have hgr := grouped gs hts.tail (inside hf hk) hg ho he hb
    obtain ⟨hC, hwq⟩ := hin.query (Nat.lt_succ_of_lt hgr.length) hgr.legible hgr.inside hq
    obtain ⟨hkind, hsource, htail⟩ := readTail_tally even hr (hts.tail.suffix hgr.suffix)
    refine onward_join (s := .subquery q) h hts hc hk hf
      (List.forall_mem_singleton.2 hC) hgr.suffix ?_ hgr.outside hkind hsource
      htail (last rfl)
    have ha : amounts lines w (Source.pieces (.subquery q)) = w q := by
      simp [Source.pieces, Piece.amount]
    rw [ha, hwq, weigh_of_balanced hb, hgr.weigh, Int.zero_add]

/-- What is read of tokens is what they amount to, and with `even` all its texts close their
parentheses if the aliases of its joins do. -/
theorem sound_parse {q : Query} {k : Nat} (hin : Inner lines even w C k) (hk : ts.length ≤ k)
    (h : d.Sound lines even w C) (hts : Legible lines ts) (hc : Closes even d.fragment.depth ts)
    (hq : parseTokens rest ts d = .ok q) (hj : ∀ j ∈ q.joins, even = true → j.AliasesClose) :
    q.Sound lines even w C ∧ q.sum lines w = d.sum lines w + weigh ts := by
  induction hn : ts.length using Nat.strongRecOn generalizing ts d with
  | ind n ih =>
    cases ts with
    | nil =>
      rw [parseTokens_nil] at hq
      obtain ⟨h₁, h₂, -⟩ := h.flush (hc.allowed (.inl rfl))
      obtain rfl := eq_of_atEnd hq
      refine ⟨h₁.query, ?_⟩
      rw [sum, flush_fragment] at h₂
      rw [weigh_nil, Int.add_zero, ← h₂]
      exact (Int.add_zero _).symm
    | cons t ts =>
      rw [parseTokens_cons] at hq
      obtain ⟨⟨d', us⟩, hs, hq⟩ := ok_of_bind hq
      have hl : us.length ≤ ts.length := leaves_step _ hs
      have hpre := joins_parse hq
      have hinner : Inner lines even w C (t :: ts).length :=
        ⟨fun hb ↦ hin.query (by omega), fun hb ↦ hin.args (by omega),
          fun hb ↦ hin.member (by omega)⟩
      have hon := onward_step hinner h hts hc hs fun j hm ↦ hj j (hpre.subset hm)
      rw [List.length_cons] at hn hk
      obtain ⟨h₁, h₂⟩ := ih us.length (by omega) (by omega) hon.sound
        (hts.suffix hon.suffix) hon.closes hq rfl
      exact ⟨h₁, h₂.trans hon.sum⟩

end Draft
end QueryTemplate
