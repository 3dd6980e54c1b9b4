import QueryTemplate.Proofs.Aggregation.Expansion
namespace QueryTemplate

open Token Grammar Fragment

variable {t w : Token} {ts us name pre post cond : List Token} {q : Query}

namespace TailClause

theorem ofToken?_settings (hk : t.kind = .identifier) (hw : t.keyword = "settings") : ofToken? t = some .settings := by
  rw [ofToken?, hk, hw]
  decide

theorem opensTail_of_ne (hk : t.kind ≠ .clause) (hw : t.keyword ≠ "settings") : opensTail t = false := by
  refine Bool.eq_false_iff.2 fun h ↦ ?_
  rcases kind_of_opensTail h with h | ⟨-, h⟩
  exacts [hk h, hw h]

end TailClause

namespace Tail

open TailClause

/-- A clause after some tokens that have none. -/
theorem partsOf_append (hu : Covered opensTail 0 us) (hd : depthAfter 0 us = 0) {c : TailClause}
    (hw : ofToken? w = some c) (ts : List Token) :
    (sections opensTail 0 (us ++ w :: ts)).lead = us ∧
      partsOf (us ++ w :: ts) = (c, (sections opensTail 0 ts).lead) :: partsOf ts := by
  have ho : opensTail w = true := by
    rw [opensTail, hw]
    rfl
  have hk : w.kind ≠ .closing ∧ w.kind ≠ .opening := by
    rcases kind_of_opensTail ho with hk | ⟨hk, -⟩ <;> simp [hk]
  rw [partsOf, sections_append hu, hd, sections_cons_heading (standing_of_kind hk.1) ho, after_of_kind hk.2]
  exact ⟨List.append_nil us, by simp [hw, partsOf]⟩

theorem split_of_covered {s : Text} (h : tokens? s = .ok ts) (hc : Covered opensTail 0 ts) : split s = .ok (s, {}) := by
  rw [split_eq h, partsOf, sections_of_covered hc, ← textOf_of_tokens? h]
  rfl

theorem split_of_settings (hl : Lexed (us ++ w :: ts)) (hu : Covered opensTail 0 us) (hd : depthAfter 0 us = 0)
    (hw : ofToken? w = some .settings) (hc : Covered opensTail 0 ts) :
    split (textOf (us ++ w :: ts)) = .ok (textOf us, { settings := some (Text.trim (textOf ts)) }) := by
  obtain ⟨hlead, hparts⟩ := partsOf_append hu hd hw ts
  have hnil : partsOf ts = [] := by rw [partsOf, sections_of_covered hc, List.filterMap_nil]
  rw [split_eq (tokens?_eq_ok_iff.2 ⟨rfl, hl⟩), hlead, hparts, hnil, sections_of_covered hc]
  rfl

/-- `SETTINGS` is refused behind itself. -/
theorem split_of_settings_twice {vs : List Token} {v : Token} (hl : Lexed (us ++ w :: (vs ++ v :: ts)))
    (hu : Covered opensTail 0 us) (hd : depthAfter 0 us = 0) (hw : ofToken? w = some .settings)
    (hvs : Covered opensTail 0 vs) (hdv : depthAfter 0 vs = 0) (hv : ofToken? v = some .settings) :
    split (textOf (us ++ w :: (vs ++ v :: ts))) = .error (.clauseOrder "SETTINGS" "SETTINGS") := by
  rw [split_eq (tokens?_eq_ok_iff.2 ⟨rfl, hl⟩), (partsOf_append hu hd hw _).2, (partsOf_append hvs hdv hv ts).2]
  rfl

end Tail

theorem TableName.opensTail (h : TableName name) (ht : t ∈ name) (hn : t.keyword ≠ "settings") :
    TailClause.opensTail t = false := TailClause.opensTail_of_ne (h.kind_ne_clause ht) hn

namespace Aggregation

theorem Condition.opensTail (h : Condition ts) : ∀ t ∈ ts, TailClause.opensTail t = false := by
  intro t ht
  have hk := h.kinds t ht
  exact TailClause.opensTail_of_ne (fun e ↦ by simp [e] at hk) (h.settings t ht)

theorem Narrowing.opensTail (h : Narrowing cond) : ∀ t ∈ cond, TailClause.opensTail t = false := by
  cases h with
  | nothing => nofun
  | condition h =>
    simp only [List.forall_mem_cons]
    exact ⟨by decide, by decide, by decide, h.opensTail⟩

theorem Narrowing.ne_slash (h : Narrowing cond) : ∀ t ∈ cond, t.text ≠ ['/'] := by
  cases h with
  | nothing => nofun
  | condition h =>
    simp only [List.forall_mem_cons]
    exact ⟨by decide, by decide, by decide, h.division⟩

/-- What may stand behind a table ends in code. -/
theorem Narrowing.last_append (h : Narrowing cond) (us : List Token) (hu : ∀ t ∈ us.getLast?, t.isBlank = false) :
    ∀ t ∈ (us ++ cond).getLast?, t.isBlank = false := by
  cases h with
  | nothing => rwa [List.append_nil]
  | @condition ts h =>
    obtain ⟨v, hv, hb⟩ := h.last
    intro t ht
    rw [List.append_cons, List.append_cons, List.append_cons, List.getLast?_append, hv] at ht
    exact Option.some.inj ht ▸ hb

theorem flat_sourceTokens (h : TableName name) (hc : Narrowing cond) : ∀ t ∈ space :: (name ++ cond), t.isFlat = true := by
  simp only [List.forall_mem_cons, List.forall_mem_append]
  exact ⟨by decide, h.flat, hc.flat⟩

theorem trim_sourceTokens (h : TableName name) (hc : Narrowing cond) (hl : Lexed (sourceTokens name cond)) :
    Text.trim (textOf (sourceTokens name cond)) = textOf (sourceTokens name cond) := by
  refine hl.trim_eq ?_ (hc.last_append (⟨.clause, "FROM"⟩ :: space :: name) fun t ht ↦ ?_)
  · exact List.forall_mem_cons.2 ⟨by decide, fun t ht ↦ code_of_flat (flat_sourceTokens h hc t ht)⟩
  · rw [List.getLast?_cons_cons, List.getLast?_cons_of_ne_nil h.ne_nil] at ht
    exact h.isBlank_of_mem (List.mem_of_getLast? ht)

/-- Flat tokens before the clauses that are put behind a source. -/
theorem Condition.lexed_bucket (h : Condition ts) (hl : Lexed ts) :
    Lexed (space :: (Token.and :: space :: (ts ++ space :: bucketTokens) ++ [closeParen])) := by
  have hlast : ∀ t ∈ ts.getLast?, t.kind ≠ .blank ∧ t.kind ≠ .comment := by
    obtain ⟨u, hu, hb⟩ := h.last
    intro t ht
    obtain rfl := Option.some.inj (hu.symm.trans ht)
    exact ⟨by simpa [Token.isBlank] using hb, code_of_flat (h.flat _ (List.mem_of_getLast? hu))⟩
  have hbucket : Lexed (space :: (bucketTokens ++ [closeParen])) := by decide +kernel
  have htail : Lexed (ts ++ space :: (bucketTokens ++ [closeParen])) :=
    lexed_append_space hl hlast (opensComment_of_forall h.division) hbucket (hbucket.tail.ahead_clause rfl)
  have hhead : ∀ t ∈ (ts ++ space :: (bucketTokens ++ [closeParen])).head?, t.isBlank = false := by
    obtain ⟨u, hu, hb⟩ := h.head
    intro t ht
    rw [List.head?_append, hu] at ht
    exact Option.some.inj ht ▸ hb
  have hand : Lexed [Token.and] := by decide
  have hjoined : Lexed (Token.and :: space :: (ts ++ space :: (bucketTokens ++ [closeParen]))) :=
    hand.before_space (by decide) (fun _ ↦ hand.conjunction_fixed rfl) htail hhead
  simpa using hjoined.space_cons (by simp [Token.and, Token.isBlank])

/-- A table name no part of which reads `SETTINGS` stays. -/
theorem expand_keeps_name (m : Mode) (h : TableName name) (hc : Narrowing cond) (hl : Lexed (deltaQuery name cond))
    (hq : q.calls = deltaCalls) (hn : ∀ t ∈ name, t.keyword ≠ "settings") :
    ∃ s q', expand m (textOf (deltaQuery name cond)) q = .ok s ∧ parse s = .ok q' ∧
      q'.innermost.source = some (.table (tablesOf name)) := by
  have hname := lexed_parts h hc hl
  have hsource := lexed_sourceTokens hl
  have hcov : Covered TailClause.opensTail 0 (sourceTokens name cond) := by
    refine covered_of_forall ?_
    simp only [sourceTokens, List.forall_mem_cons, List.forall_mem_append]
    exact ⟨by decide, by decide, fun t ht ↦ h.opensTail ht (hn t ht), hc.opensTail⟩
  have hsplit := Tail.split_of_covered (tokens?_eq_ok_iff.2 ⟨rfl, hsource⟩) hcov
  rw [← congrArg Tail.split (trim_sourceTokens h hc hsource)] at hsplit
  have hflat := flat_sourceTokens h hc
  have hclause : ∀ t ∈ space :: name, t.kind ≠ .clause ∧ t.isFlat = true :=
    List.forall_mem_cons.2 ⟨by decide, fun t ht ↦ ⟨h.kind_ne_clause ht, h.flat t ht⟩⟩
  cases hc with
  | nothing =>
    simp only [sourceTokens, List.append_nil] at hsource hflat
    have he := expand_deltaQuery m [] hq hl hsource hflat (by simpa [sourceTokens] using hsplit) rfl
      (trimmed_withFilter fun t ht ↦ (hclause t ht).1)
    obtain ⟨q', hq', hs⟩ := exists_parse_expansion m bucketTokens h hname (List.prefix_refl name) hsource
      (by decide +kernel) (by decide)
    exact ⟨_, q', he, hq', hs⟩
  | @condition ts hp =>
    have hts : Lexed ts := Lexed.suffix (a := sourceTokens name [space, ⟨.clause, "WHERE"⟩, space])
      (by simpa [sourceTokens] using hsource)
    have hself := trimmed_from h (List.prefix_refl name) h.ne_nil
    have hfrom : Lexed (⟨.clause, "FROM"⟩ :: (space :: name ++ [space])) :=
      Lexed.left_of_clause (t := ⟨.clause, "WHERE"⟩) (b := space :: ts) (by simpa [sourceTokens] using hsource) rfl
    have hfrom' : Lexed (⟨.clause, "FROM"⟩ :: space :: name) := by
      refine Lexed.dropBlanks (a := ⟨.clause, "FROM"⟩ :: space :: name) hfrom (by decide) ?_
      rw [← hself]
      exact last_trimmed (List.forall_mem_cons.2 ⟨by decide, fun t ht ↦ code_of_flat (hclause t ht).2⟩)
    have he := expand_deltaQuery m [] hq hl hsource hflat hsplit rfl
      (trimmed_withFilter_where (space :: name) hp hclause)
    obtain ⟨q', hq', hs⟩ := exists_parse_expansion m (Token.and :: space :: (ts ++ space :: bucketTokens)) h hname
      (List.prefix_refl name) hfrom' (hp.lexed_bucket hts) (by
        simp only [List.forall_mem_cons, List.forall_mem_append]
        exact ⟨by decide, by decide, hp.flat, by decide, by decide⟩)
    rw [hself] at hq'
    exact ⟨_, q', he, by simpa using hq', hs⟩

/-- The clause that is made of the end of a source stands behind the grouping. -/
theorem lexed_settings (hl : Lexed ts) (hhead : ∀ t ∈ ts.head?, t.isBlank = false)
    (hlast : ∀ t ∈ ts.getLast?, t.kind ≠ .blank ∧ t.kind ≠ .comment) (hslash : opensComment ts = false)
    (ha : ahead (ts ++ [closeParen]) = []) :
    Lexed (space :: (bucketTokens ++ space :: ⟨.identifier, "SETTINGS"⟩ :: space :: ts ++ [closeParen])) := by
  have hparen : Lexed [closeParen] := by decide
  have hclose : Lexed (ts ++ [closeParen]) :=
    hl.append hparen ⟨fun c hc ↦ Option.some.inj hc ▸ by decide, by decide⟩ rfl hlast
      (slashFree_append hslash hparen.slashFree (by decide))
  have hhead' : ∀ t ∈ (ts ++ [closeParen]).head?, t.isBlank = false := by
    cases ts with
    | nil => decide
    | cons t ts => exact hhead
  have hsettings : Lexed ([⟨.identifier, "SETTINGS"⟩] ++ space :: (ts ++ [closeParen])) :=
    lexed_append_space (by decide) (by decide) (by decide) (hclose.space_cons hhead') ha
  have hwords : leadingWords "SETTINGS".toList = ["settings".toList] := by decide +kernel
  have hbucket : Lexed (bucketTokens ++ space :: ([⟨.identifier, "SETTINGS"⟩] ++ space :: (ts ++ [closeParen]))) :=
    lexed_append_space (by decide +kernel) (by decide) (by decide) (hsettings.space_cons (by simp [Token.isBlank]))
      (hsettings.ahead_head rfl hwords (by decide))
  simpa using hbucket.space_cons (by simp [bucketTokens, Token.isBlank])

/-- What is behind a part of a table name is a clause of its own. -/
theorem exists_settings (h : TableName (pre ++ w :: post)) (hk : w.kind = .identifier) (hc : Narrowing cond)
    (hname : ∀ t ∈ pre ++ w :: post, Lexed [t]) (hl : Lexed (post ++ cond)) :
    ∃ zs, Text.trim (textOf (post ++ cond)) = textOf zs ∧ (∀ t ∈ zs, t.isFlat = true) ∧
      Lexed (space :: (bucketTokens ++ space :: ⟨.identifier, "SETTINGS"⟩ :: space :: zs ++ [closeParen])) := by
  have hpost : ∀ {t}, t ∈ post → t ∈ pre ++ w :: post := fun ht ↦ by simp [ht]
  have hflat : ∀ t ∈ post ++ cond, t.isFlat = true :=
    List.forall_mem_append.2 ⟨fun t ht ↦ h.flat t (hpost ht), hc.flat⟩
  have hlast := hc.last_append post fun t ht ↦ h.isBlank_of_mem (hpost (List.mem_of_getLast? ht))
  have hslash : ∀ t ∈ post ++ cond, t.text ≠ ['/'] :=
    List.forall_mem_append.2 ⟨fun t ht ↦ h.ne_slash hname (hpost ht), hc.ne_slash⟩
  have hsub := List.dropWhile_suffix isBlank (l := post ++ cond)
  have hzs : Lexed ((post ++ cond).dropWhile isBlank) := by
    obtain ⟨gs, he⟩ := hsub
    exact Lexed.suffix (a := gs) (by rwa [he])
  -- no phrase goes on with a point or `WHERE`, so `SETTINGS` is read alone
  have hahead : ahead ((post ++ cond).dropWhile isBlank ++ [closeParen]) = [] := by
    rcases h.suffix_cases hk with rfl | ⟨y, rfl⟩
    · cases hc with
      | nothing => rfl
      | condition hc => exact hzs.ahead_clause rfl
    · exact ahead_symbol rfl rfl _
  refine ⟨_, hl.trim_eq (fun t ht ↦ code_of_flat (hflat t ht)) hlast, fun t ht ↦ hflat t (hsub.subset ht),
    lexed_settings hzs head_dropWhile_isBlank (fun t ht ↦ ?_)
      (opensComment_of_forall fun t ht ↦ hslash t (hsub.subset ht)) hahead⟩
  have hmem : t ∈ (post ++ cond).getLast? := by
    obtain ⟨gs, he⟩ := hsub
    rw [← he, List.getLast?_append, ht]
    rfl
  exact ⟨by simpa [Token.isBlank] using hlast t hmem, code_of_flat (hflat t (List.mem_of_getLast? hmem))⟩

/-- The source before a part that reads `SETTINGS`, and the clause that is made of what is behind it. -/
theorem split_before (h : TableName (pre ++ w :: post)) (hc : Narrowing cond)
    (hl : Lexed (sourceTokens (pre ++ w :: post) cond)) (hk : w.kind = .identifier) (hw : w.keyword = "settings")
    (hpre : ∀ t ∈ pre, t.keyword ≠ "settings") (hpost : ∀ t ∈ post, t.keyword ≠ "settings") :
    Lexed (⟨.clause, "FROM"⟩ :: space :: pre) ∧ Lexed (post ++ cond) ∧
      Tail.split (Text.trim (textOf (sourceTokens (pre ++ w :: post) cond))) =
        .ok (textOf (⟨.clause, "FROM"⟩ :: space :: pre), { settings := some (Text.trim (textOf (post ++ cond))) }) := by
  have hset := TailClause.ofToken?_settings hk hw
  have hopen : TailClause.opensTail w = true := by
    rw [TailClause.opensTail, hset]
    rfl
  have hflat : ∀ t ∈ (⟨.clause, "FROM"⟩ :: space :: pre : List Token), t.isFlat = true := by
    simp only [List.forall_mem_cons]
    exact ⟨by decide, by decide, fun t ht ↦ h.flat t (List.mem_append_left _ ht)⟩
  have hcov : Covered TailClause.opensTail 0 (⟨.clause, "FROM"⟩ :: space :: pre) := by
    refine covered_of_forall ?_
    simp only [List.forall_mem_cons]
    exact ⟨by decide, by decide, fun t ht ↦ h.opensTail (List.mem_append_left _ ht) (hpre t ht)⟩
  have hrest : Covered TailClause.opensTail 0 (post ++ cond) :=
    covered_of_forall (List.forall_mem_append.2 ⟨fun t ht ↦
      h.opensTail (List.mem_append_right _ (List.mem_cons_of_mem _ ht)) (hpost t ht), hc.opensTail⟩)
  have he : sourceTokens (pre ++ w :: post) cond = ⟨.clause, "FROM"⟩ :: space :: pre ++ w :: (post ++ cond) := by
    simp [sourceTokens]
  rw [trim_sourceTokens h hc hl]
  rw [he] at hl ⊢
  exact ⟨hl.left_of_severs (TailClause.severs_of_opensTail hl.suffix.readBefore hopen), hl.suffix.tail,
    Tail.split_of_settings hl hcov (depthAfter_of_depthRun (depthRun_of_flat hflat 0)) hset hrest⟩

/-- A table name of which one part reads `SETTINGS` is cut before that part. -/
theorem expand_cuts_name (m : Mode) (h : TableName (pre ++ w :: post)) (hc : Narrowing cond)
    (hl : Lexed (deltaQuery (pre ++ w :: post) cond)) (hq : q.calls = deltaCalls) (hw : w.keyword = "settings")
    (hpre : ∀ t ∈ pre, t.keyword ≠ "settings") (hpost : ∀ t ∈ post, t.keyword ≠ "settings") :
    ∃ s q', expand m (textOf (deltaQuery (pre ++ w :: post) cond)) q = .ok s ∧ parse s = .ok q' ∧
      q'.innermost.source = some (.table (tablesOf pre)) := by
  have hname := lexed_parts h hc hl
  have hk : w.kind = .identifier := by
    rcases h.kind_of_mem (List.mem_append_right pre List.mem_cons_self) with hk | rfl
    · exact hk
    · cases hw
  have hflat : ∀ t ∈ space :: pre, t.isFlat = true :=
    List.forall_mem_cons.2 ⟨by decide, fun t ht ↦ h.flat t (List.mem_append_left _ ht)⟩
  have hclause : ∀ t ∈ space :: pre, t.kind ≠ .clause :=
    List.forall_mem_cons.2 ⟨by decide, fun t ht ↦ h.kind_ne_clause (List.mem_append_left _ ht)⟩
  obtain ⟨hfrom, hrest, hsplit⟩ := split_before h hc (lexed_sourceTokens hl) hk hw hpre hpost
  obtain ⟨zs, htrim, hzs, hlexed⟩ := exists_settings h hk hc hname hrest
  rw [htrim] at hsplit
  have hexpand := expand_deltaQuery m (space :: ⟨.identifier, "SETTINGS"⟩ :: space :: zs) hq hl hfrom hflat hsplit
    (by simp [Tail.clause, space]) (trimmed_withFilter hclause)
  obtain ⟨q', hq', hs⟩ := exists_parse_expansion m _ h hname (List.prefix_append pre _) hfrom hlexed (by
    simp only [List.forall_mem_cons, List.forall_mem_append]
    exact ⟨by decide, by decide, by decide, by decide, hzs⟩)
  exact ⟨_, q', hexpand, hq', hs⟩

/-- Two parts that read `SETTINGS` are two clauses, which are out of order. -/
theorem expand_refuses_name (m : Mode) {x y : Token} (hx : x.kind = .identifier) (hy : y.kind = .identifier)
    (hc : Narrowing cond) (hl : Lexed (deltaQuery [x, point, y] cond)) (hq : q.calls = deltaCalls)
    (hxs : x.keyword = "settings") (hys : y.keyword = "settings") :
    expand m (textOf (deltaQuery [x, point, y] cond)) q = .error (.clauseOrder "SETTINGS" "SETTINGS") := by
  have hsource : Lexed ([⟨.clause, "FROM"⟩, space] ++ x :: ([point] ++ y :: cond)) := lexed_sourceTokens hl
  have hsplit : Tail.split (textOf (sourceTokens [x, point, y] cond)) = .error (.clauseOrder "SETTINGS" "SETTINGS") :=
    Tail.split_of_settings_twice hsource (by decide) rfl
      (TailClause.ofToken?_settings hx hxs) (by decide) rfl (TailClause.ofToken?_settings hy hys)
  rw [expand_eq m hq hl, trim_sourceTokens (.qualified hx hy) hc hsource, hsplit]
  rfl

theorem tablesOf_ne (hl : ∀ t ∈ pre ++ w :: post, Lexed [t]) :
    tablesOf pre ≠ [textOf (pre ++ w :: post)] := by
  intro he
  unfold tablesOf at he
  split at he
  · cases he
  · have htext := (List.cons.inj he).1
    rw [textOf_append, List.self_eq_append_right, textOf_cons] at htext
    exact (hl w (by simp)).text_ne_nil (List.append_eq_nil_iff.1 htext).1

/-- A part that reads `SETTINGS` is the only one, or both do. -/
theorem exists_settings_part (h : TableName name) (ht : t ∈ name) (hw : t.keyword = "settings") :
    (∃ (pre : List Token) (w : Token) (post : List Token), name = pre ++ w :: post ∧ w.keyword = "settings" ∧
      (∀ t ∈ pre, t.keyword ≠ "settings") ∧ ∀ t ∈ post, t.keyword ≠ "settings") ∨
    ∃ x y, name = [x, point, y] ∧ x.kind = .identifier ∧ y.kind = .identifier ∧
      x.keyword = "settings" ∧ y.keyword = "settings" := by
  have hpoint : point.keyword ≠ "settings" := by decide
  have hpair : ∀ {u v : Token}, u.keyword ≠ "settings" → v.keyword ≠ "settings" →
      ∀ t ∈ [u, v], t.keyword ≠ "settings" := fun hu hv ↦
    List.forall_mem_cons.2 ⟨hu, List.forall_mem_singleton.2 hv⟩
  cases h with
  | bare hx => exact .inl ⟨[], _, [], rfl, List.mem_singleton.1 ht ▸ hw, nofun, nofun⟩
  | @qualified x y hx hy =>
    by_cases hxs : x.keyword = "settings"
    · by_cases hys : y.keyword = "settings"
      · exact .inr ⟨x, y, rfl, hx, hy, hxs, hys⟩
      · exact .inl ⟨[], x, [point, y], rfl, hxs, nofun, hpair hpoint hys⟩
    · by_cases hys : y.keyword = "settings"
      · exact .inl ⟨[x, point], y, [], rfl, hys, hpair hxs hpoint, nofun⟩
      · simp only [List.mem_cons, List.not_mem_nil, or_false] at ht
        rcases ht with rfl | rfl | rfl
        exacts [absurd hw hxs, absurd hw hpoint, absurd hw hys]

/-- The table of a query is the source of its expansion exactly if no part of its name reads `SETTINGS`. -/
theorem expand_keeps_table_iff {s : Text} (m : Mode) (h : TableName name) (hc : Narrowing cond)
    (hs : tokens? s = .ok (deltaQuery name cond)) :
    ∃ q, parse s = .ok q ∧ q.source = some (.table [textOf name]) ∧
      ((∃ s' q', expand m s q = .ok s' ∧ parse s' = .ok q' ∧ q'.innermost.source = q.source) ↔
        ∀ t ∈ name, t.keyword ≠ "settings") := by
  obtain ⟨rfl, hl⟩ := tokens?_eq_ok_iff.1 hs
  obtain ⟨q, hparse, hsource, hq⟩ := parse_deltaQuery h hc hl
  have hname := lexed_parts h hc hl
  refine ⟨q, hparse, hsource, fun ⟨s', q', hexpand, hparse', hkept⟩ t ht hw ↦ ?_, fun hn ↦ ?_⟩
  · rcases exists_settings_part h ht hw with ⟨pre, w, post, rfl, hw, hpre, hpost⟩ | ⟨x, y, rfl, hx, hy, hxs, hys⟩
    · obtain ⟨s₁, q₁, he, hp, hs⟩ := expand_cuts_name m h hc hl hq hw hpre hpost
      obtain rfl := Except.ok.inj (he.symm.trans hexpand)
      obtain rfl := Except.ok.inj (hp.symm.trans hparse')
      rw [hs, hsource] at hkept
      exact tablesOf_ne hname (by simpa using hkept)
    · rw [expand_refuses_name m hx hy hc hl hq hxs hys] at hexpand
      cases hexpand
  · obtain ⟨s', q', hexpand, hparse', hkept⟩ := expand_keeps_name m h hc hl hq hn
    refine ⟨s', q', hexpand, hparse', hkept.trans ?_⟩
    rw [hsource, tablesOf, if_neg h.ne_nil]

theorem expand_keeps_table_iff_settings :
    let s : Text := "$delta(a) FROM db.t WHERE x = 1 AND y = 'b'"
    let r : Text := "$delta(a) FROM settings"
    (∃ q s' q', parse s = .ok q ∧ q.source = some (.table ["db.t"]) ∧
      expand .running s q = .ok s' ∧ parse s' = .ok q' ∧ q'.innermost.source = q.source) ∧
    ∃ q, parse r = .ok q ∧ q.source = some (.table ["settings"]) ∧
      ¬∃ s' q', expand .running r q = .ok s' ∧ parse s' = .ok q' ∧ q'.innermost.source = q.source := by
  intro s r
  let cond : List Token := [⟨.identifier, "x"⟩, space, ⟨.operator, "="⟩, space, ⟨.number, "1"⟩, space,
    Token.and, space, ⟨.identifier, "y"⟩, space, ⟨.operator, "="⟩, space, ⟨.string, "'b'"⟩]
  have hcond : Condition cond := ⟨by decide, by decide, by decide, by decide, by decide⟩
  have hs : tokens? s = .ok (deltaQuery [nameToken "db", point, nameToken "t"]
      (space :: ⟨.clause, "WHERE"⟩ :: space :: cond)) :=
    tokens?_eq_ok_iff.2 ⟨rfl, by decide +kernel⟩
  have hr : tokens? r = .ok (deltaQuery [nameToken "settings"] []) := tokens?_eq_ok_iff.2 ⟨rfl, by decide +kernel⟩
  constructor
  · obtain ⟨q, hq, hsource, hiff⟩ := expand_keeps_table_iff .running (.qualified rfl rfl) (.condition hcond) hs
    obtain ⟨s', q', hkept⟩ := hiff.2 (by decide)
    exact ⟨q, s', q', hq, hsource, hkept⟩
  · obtain ⟨q, hq, hsource, hiff⟩ := expand_keeps_table_iff .running (.bare rfl) .nothing hr
    exact ⟨q, hq, hsource, fun h ↦ hiff.1 h (nameToken "settings") List.mem_cons_self (by decide)⟩

end Aggregation
end QueryTemplate
