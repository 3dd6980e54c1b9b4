import QueryTemplate.Proofs.Query.Reprint
namespace QueryTemplate

open Token Fragment Grammar Formula

namespace Query

variable {c : Clause} {sep : List Token} {ls : List (List Token)}

theorem textOf_itemLines (hl : ∀ l ∈ ls, Inline l ∧ codeOf l ≠ []) (hne : ls ≠ []) :
    (itemLines [] (textOf sep) (ls.map itemText)).flatMap (['\n'] ++ ·) = textOf (lineStart :: printed sep ls) := by
  have htab : ∀ s : Text, '\n' :: (tab ++ s) = lineStart.text ++ s := fun _ ↦ rfl
  fun_induction printed sep ls with
  | case1 => exact absurd rfl hne
  | case2 l =>
    obtain ⟨hi, hc⟩ := hl l List.mem_cons_self
    have hl : l ≠ [] := by
      rintro rfl
      exact hc rfl
    simp [itemLines, hi.trimEnd_itemText hl, htab]
  | case3 l m r ih =>
    obtain ⟨⟨hi, hc⟩, hr⟩ := List.forall_mem_cons.1 hl
    have ih := ih hr (by simp)
    rw [List.map_cons, List.map_cons, itemLines, List.flatMap_cons, ← List.map_cons, ih, withSeparator_itemText hi hc]
    simp [htab]

theorem endsInLineComment_title (hc : c ∈ selectClauses) : endsInLineComment c.title.text = false := by
  have h := (title_spec c (name_selectClauses c hc).1).1
  rw [Lexed, textOf_cons, textOf_nil, List.append_nil] at h
  rw [endsInLineComment, h]
  rfl

/-- A clause is printed as its keyword and its items. -/
theorem textOf_clauseLines (hc : c ∈ selectClauses) (hl : ∀ l ∈ ls, Inline l ∧ codeOf l ≠ []) (hne : ls ≠ []) :
    Text.join ['\n'] (clauseLines [] c.title.text (textOf sep) (ls.map itemText)) =
      textOf (c.title :: leader ls :: printed sep ls) := by
  match ls, hne with
  | [l], _ =>
    obtain ⟨hi, hcode⟩ := hl l List.mem_cons_self
    have hl : l ≠ [] := by
      rintro rfl
      exact hcode rfl
    have htext : textOf (bare none l) ≠ [] := by
      obtain ⟨t, l, rfl⟩ := List.exists_cons_of_ne_nil hl
      obtain ⟨a, s, e, -⟩ := hi.head_bare
      simp [e]
    simp [clauseLines, Text.join, glue, hi.trimEnd_itemText hl, htext, endsInLineComment_title hc, leader, printed, space]
  | l :: m :: r, _ =>
    have h : _ = textOf (lineStart :: printed sep (l :: m :: r)) := textOf_itemLines hl (by simp)
    rw [List.map_cons, List.map_cons, clauseLines, join_cons, ← List.map_cons, ← List.map_cons, h]
    simp [leader]

theorem foldMarkers_eq_self {xs : List Text} (h : ∀ y ∈ xs.tail, y ≠ commaMarker) : foldMarkers xs = xs := by
  have hgo : ∀ (ys : List Text) (x : Text), (∀ y ∈ ys, y ≠ commaMarker) → foldMarkers.go x ys = x :: ys := by
    intro ys
    induction ys with
    | nil => exact fun _ _ ↦ rfl
    | cons y ys ih =>
      intro x h
      obtain ⟨hy, h⟩ := List.forall_mem_cons.1 h
      rw [foldMarkers.go, if_neg hy, ih y h]
  cases xs with
  | nil => rfl
  | cons x xs => exact hgo xs x h

theorem itemCode_comma : itemCode [','] = [comma] := by
  have h : Lexed [comma] := by decide
  rw [Lexed, textOf_cons, textOf_nil] at h
  rw [itemCode, show [','] = comma.text ++ [] from rfl, h]
  rfl

theorem foldMarkers_itemTexts {p : Passage} (h : p.Prints) (hp : p.clause.isPredicate = true) :
    foldMarkers (itemTexts p.items) = itemTexts p.items := by
  refine foldMarkers_eq_self fun y hy e ↦ ?_
  rw [itemTexts, ← List.map_tail] at hy
  obtain ⟨x, hx, rfl⟩ := List.mem_map.1 hy
  have hcode := (h.inline x (List.mem_of_mem_tail hx)).itemCode_itemText
  obtain ⟨t, z, rfl, ht, -⟩ := h.isConjunct hp x hx
  rw [e, commaMarker, itemCode_comma, codeOf_inked, codeOf_cons_code (by simp [ht]) (by simp [ht])] at hcode
  rw [← (List.cons.inj hcode).1] at ht
  cases ht

theorem fill_rest (q : Query) (ps : List Passage) : (q.fill ps).root = q.root ∧ (q.fill ps).calls = q.calls ∧
    (q.fill ps).joins = q.joins ∧ (q.fill ps).unions = q.unions := by
  induction ps generalizing q with
  | nil => exact ⟨rfl, rfl, rfl, rfl⟩
  | cons p ps ih =>
    have h := ih (q.assign (itemTexts p.items) p.clause)
    rw [fill, List.foldl_cons, ← fill]
    cases hc : p.clause <;> rw [hc] at h <;> exact h

theorem items_fill {ps : List Passage} (hl : ∀ p ∈ ps, p.clause.isListed = true) (hn : (ps.map Passage.clause).Nodup)
    (q : Query) (c : Clause) : (q.fill ps).items c = match ps.find? (·.clause = c) with
      | some p => some (itemTexts p.items)
      | none => q.items c := by
  induction ps generalizing q with
  | nil => rfl
  | cons p ps ih =>
    obtain ⟨hlp, hl⟩ := List.forall_mem_cons.1 hl
    obtain ⟨hnp, hn⟩ := List.nodup_cons.1 hn
    rw [fill, List.foldl_cons, ← fill, ih hl hn]
    by_cases hc : p.clause = c
    · subst hc
      have hf : ps.find? (·.clause = p.clause) = none :=
        List.find?_eq_none.2 fun r hr e ↦ hnp (List.mem_map.2 ⟨r, hr, by simpa using e⟩)
      rw [hf, List.find?_cons_of_pos (by simp)]
      exact items_assign hlp
    · rw [List.find?_cons_of_neg (by simpa using hc)]
      cases ps.find? (·.clause = c) with
      | some r => rfl
      | none => exact items_assign_of_ne hlp (Ne.symm hc)

/-- A statement is printed clause by clause. -/
theorem lines_fill {ps : List Passage} (h : IsSelect ps) (hp : ∀ p ∈ ps, p.Prints) :
    (fill {} ps).lines [] = ps.flatMap fun p ↦
      clauseLines [] p.clause.title.text (textOf p.separator) (itemTexts p.items) := by
  obtain ⟨hr, hc, hj, hu⟩ := fill_rest {} ps
  have hitems := items_fill h.isListed h.nodup {}
  have hfind : ∀ c ∈ ps.map Passage.clause, ∃ p ∈ ps, (fill {} ps).items c = some (itemTexts p.items) := by
    intro c hm
    obtain ⟨p, hp, rfl⟩ := List.mem_map.1 hm
    cases e : ps.find? (·.clause = p.clause) with
    | none =>
      have := List.find?_eq_none.1 e p hp
      simp at this
    | some r => exact ⟨r, List.mem_of_find?_eq_some e, by rw [hitems, e]⟩
  have hsel : ∀ c ∈ [Clause.slot .select, .source], c ∈ ps.map Passage.clause := by
    obtain ⟨o, -, e⟩ := h.clauses
    rw [e]
    simp
  have hbranch : (fill {} ps).branchLines [] = [] := by rw [branchLines, hu]
  have horder : (ps.map Passage.clause).Sublist Clause.printOrder := h.sublist.trans (by decide)
  rw [lines_eq [] hr hc hj ?_ (.inl hu), hbranch, List.append_nil, ← flatMap_of_sublist horder (by decide)]
  · have hempty : ∀ c ∈ Clause.printOrder, items {} c = none := by decide
    refine flatMap_congr fun c hc ↦ ?_
    cases e : ps.find? (·.clause = c) with
    | none =>
      refine clauseOf_of_none [] (by rw [hitems, e, hempty c hc]) ?_
      rintro rfl
      obtain ⟨p, hp, hpc⟩ := List.mem_map.1 (hsel .source (by simp))
      exact absurd (by simpa using hpc) (List.find?_eq_none.1 e p hp)
    | some p =>
      have hpc : p.clause = c := by simpa using List.find?_some e
      have hpp := hp p (List.mem_of_find?_eq_some e)
      subst hpc
      rw [clauseOf_of_items [] (by rw [hitems, e]), listLines]
      dsimp only
      rw [Passage.separator]
      cases hpred : p.clause.isPredicate with
      | false => rfl
      | true =>
        rw [if_pos rfl, if_pos rfl, if_pos rfl, foldMarkers_itemTexts hpp hpred]
        rfl
  · obtain ⟨p, hp', e⟩ := hfind (.slot .select) (hsel _ (by simp))
    intro hn
    have hs : (fill {} ps).items (.slot .select) = some [] := hn
    rw [hs] at e
    exact (h.passages p hp').ne (List.map_eq_nil_iff.1 (Option.some.inj e).symm)

/-- Every clause has the same number of items with the same tokens, white space and comments aside. -/
def SameCode (q r : Query) : Prop := ∀ c, (q.items c).map (·.map itemCode) = (r.items c).map (·.map itemCode)

end Query

section

variable {ps qs : List Passage}

/-- What the items of a passage say. -/
def Passage.codes (p : Passage) : List (List Token) := p.items.map codeOf

theorem itemCodes {p : Passage} (h : p.Prints) : (itemTexts p.items).map itemCode = p.codes := by
  rw [itemTexts, List.map_map, Passage.codes]
  refine List.map_congr_left fun x hx ↦ ?_
  rw [← codeOf_inked]
  exact (h.inline x hx).itemCode_itemText

theorem find?_codes_iff (hc : ps.map Passage.clause = qs.map Passage.clause) (hn : (ps.map Passage.clause).Nodup) :
    (∀ c, (ps.find? (·.clause = c)).map Passage.codes = (qs.find? (·.clause = c)).map Passage.codes) ↔
      ps.map Passage.codes = qs.map Passage.codes := by
  induction ps generalizing qs with
  | nil =>
    obtain rfl := List.map_eq_nil_iff.1 hc.symm
    simp
  | cons p ps ih =>
    obtain ⟨q, qs, rfl, hpq, hc⟩ := List.map_eq_cons_iff.1 hc.symm
    obtain ⟨hp, hn⟩ := List.nodup_cons.1 hn
    have hnone : ∀ rs : List Passage, rs.map Passage.clause = ps.map Passage.clause → rs.find? (·.clause = p.clause) = none := by
      intro rs hr
      refine List.find?_eq_none.2 fun r hm e ↦ hp ?_
      rw [← hr, ← show r.clause = p.clause by simpa using e]
      exact List.mem_map_of_mem hm
    rw [List.map_cons, List.map_cons, List.cons.injEq, ← ih hc.symm hn]
    constructor
    · intro h
      refine ⟨?_, fun c ↦ ?_⟩
      · have := h p.clause
        rwa [List.find?_cons_of_pos (by simp), List.find?_cons_of_pos (by simpa using hpq), Option.map_some, Option.map_some,
          Option.some.injEq] at this
      · by_cases e : p.clause = c
        · rw [← e, hnone ps rfl, hnone qs hc]
        · have := h c
          rwa [List.find?_cons_of_neg (by simpa using e), List.find?_cons_of_neg (by simpa [hpq] using e)] at this
    · rintro ⟨h₁, h₂⟩ c
      by_cases e : p.clause = c
      · rw [List.find?_cons_of_pos (by simpa using e), List.find?_cons_of_pos (by simpa [hpq] using e), Option.map_some,
          Option.map_some, h₁]
      · rw [List.find?_cons_of_neg (by simpa using e), List.find?_cons_of_neg (by simpa [hpq] using e)]
        exact h₂ c

theorem IsSelect.prints (h : IsSelect ps) (hl : Lexed (statement ps)) : ∀ p ∈ ps, p.Prints :=
  fun p hp ↦ ⟨h.passages p hp, h.sublist.mem (List.mem_map_of_mem hp), h.inline hl p hp⟩

theorem sameCode_fill_iff (hp : IsSelect ps) (hps : ∀ p ∈ ps, p.Prints) (hq : IsSelect qs) (hqs : ∀ q ∈ qs, q.Prints)
    (hc : ps.map Passage.clause = qs.map Passage.clause) :
    (Query.fill {} ps).SameCode (Query.fill {} qs) ↔ ps.map Passage.codes = qs.map Passage.codes := by
  have key : ∀ rs : List Passage, IsSelect rs → (∀ r ∈ rs, r.Prints) → ∀ c,
      ((Query.fill {} rs).items c).map (·.map itemCode) =
        ((rs.find? (·.clause = c)).map Passage.codes).or ((Query.items {} c).map (·.map itemCode)) := by
    intro rs hr hrs c
    rw [Query.items_fill hr.isListed hr.nodup]
    cases e : rs.find? (·.clause = c) with
    | none => simp
    | some r => simp [itemCodes (hrs r (List.mem_of_find?_eq_some e))]
  have hsome : ∀ c, (ps.find? (·.clause = c)).isSome = (qs.find? (·.clause = c)).isSome := by
    intro c
    have hm : ∀ rs : List Passage, (rs.find? (·.clause = c)).isSome = true ↔ c ∈ rs.map Passage.clause := by
      intro rs
      simp [List.find?_isSome]
    rw [Bool.eq_iff_iff, hm, hm, hc]
  rw [← find?_codes_iff hc hp.nodup]
  refine forall_congr' fun c ↦ ?_
  rw [key ps hp hps, key qs hq hqs]
  have := hsome c
  cases h₁ : ps.find? (·.clause = c) <;> cases h₂ : qs.find? (·.clause = c) <;> simp_all

theorem clause_reprint (ps : List Passage) : (reprint ps).map Passage.clause = ps.map Passage.clause := by
  fun_induction reprint ps with
  | case1 => rfl
  | case2 p => rfl
  | case3 p q r ih =>
    rw [List.map_cons, ih]
    rfl

theorem isSelect_reprint (h : IsSelect ps) (hp : ∀ p ∈ ps, p.Prints) : IsSelect (reprint ps) := by
  refine ⟨by rw [clause_reprint]; exact h.clauses, ?_⟩
  clear h
  fun_induction reprint ps with
  | case1 => exact fun p hp ↦ by cases hp
  | case2 p => exact List.forall_mem_singleton.2 (wellFormed_reprinted (hp p List.mem_cons_self) (by simp))
  | case3 p q r ih =>
    obtain ⟨hp, hr⟩ := List.forall_mem_cons.1 hp
    exact List.forall_mem_cons.2 ⟨wellFormed_reprinted hp (by decide), ih hr⟩

theorem codes_reprint_iff (hp : ∀ p ∈ ps, p.Prints) :
    ps.map Passage.codes = (reprint ps).map Passage.codes ↔ ∀ p ∈ ps, ¬ p.LosesComma := by
  fun_induction reprint ps with
  | case1 => simp
  | case2 p =>
    have h : (p.reprinted []).items.map codeOf = _ ↔ _ := codeOf_reprinted_iff (hp p List.mem_cons_self) (by simp)
    rw [List.map_singleton, List.map_singleton, List.forall_mem_singleton, ← h, eq_comm, List.cons.injEq]
    simp [Passage.codes]
  | case3 p q r ih =>
    obtain ⟨hp, hr⟩ := List.forall_mem_cons.1 hp
    have h : (p.reprinted [lineBreak]).items.map codeOf = _ ↔ _ := codeOf_reprinted_iff hp (by decide)
    rw [List.map_cons (a := p), List.map_cons (a := p.reprinted [lineBreak]), List.cons.injEq, ih hr,
      List.forall_mem_cons (a := p), ← h]
    exact and_congr_left fun _ ↦ eq_comm

/-- The printed text of a statement. -/
theorem print_fill (h : IsSelect ps) (hp : ∀ p ∈ ps, p.Prints) : (Query.fill {} ps).print = textOf (statement (reprint ps)) := by
  rw [Query.print, Query.printAt, Query.lines_fill h hp]
  clear h
  have hline : ∀ p : Passage, p.Prints → ∀ tail, textOf (p.reprinted tail).tokens =
      Text.join ['\n'] (Query.clauseLines [] p.clause.title.text (textOf p.separator) (itemTexts p.items)) ++ textOf tail := by
    intro p hp tail
    have hne : p.items.map inked ≠ [] := by simpa using hp.wellFormed.ne
    have hlead : leader (p.items.map inked) = leader p.items := by simp [leader]
    have htext : _ = textOf (p.clause.title :: leader (p.items.map inked) :: printed p.separator (p.items.map inked)) :=
      Query.textOf_clauseLines hp.clause hp.inked hne
    rw [List.map_map, hlead] at htext
    rw [tokens_reprinted hp.wellFormed.ne, itemTexts, show (fun x ↦ itemText (inked x)) = itemText ∘ inked from rfl, htext]
    simp
  have hlines : ∀ p : Passage, Query.clauseLines [] p.clause.title.text (textOf p.separator) (itemTexts p.items) ≠ [] := by
    intro p
    rcases itemTexts p.items with _ | ⟨x, _ | ⟨y, r⟩⟩ <;> simp [Query.clauseLines]
  fun_induction reprint ps with
  | case1 => rfl
  | case2 p =>
    simp [statement, hline p (hp p List.mem_cons_self)]
  | case3 p q r ih =>
    obtain ⟨hp, hr⟩ := List.forall_mem_cons.1 hp
    have hne : (q :: r).flatMap (fun p ↦ Query.clauseLines [] p.clause.title.text (textOf p.separator) (itemTexts p.items)) ≠ [] := by
      rw [List.flatMap_cons]
      exact fun e ↦ hlines q (List.append_eq_nil_iff.1 e).1
    have hst : statement (p.reprinted [lineBreak] :: reprint (q :: r)) =
        (p.reprinted [lineBreak]).tokens ++ statement (reprint (q :: r)) := List.flatMap_cons
    rw [List.flatMap_cons, join_append _ (hlines p) hne, ih hr, hst, textOf_append, hline p hp]
    simp [lineBreak]

/-- The tree of a statement with comments is printed and read again. Its items say the same as before exactly when no
comma is after two line comments, where the printer puts it into the first one. -/
theorem parse_print_comments_iff {s : Text} (hs : tokens? s = .ok (statement ps)) (h : IsSelect ps) :
    ∃ q r, parse s = .ok q ∧ parse q.print = .ok r ∧ (q.SameCode r ↔ ∀ p ∈ ps, ¬ p.LosesComma) := by
  obtain ⟨rfl, hl⟩ := tokens?_eq_ok_iff.1 hs
  have hp := h.prints hl
  have hr := isSelect_reprint h hp
  have hrl := lexed_reprint hp
  refine ⟨_, _, h.parse hl, by rw [print_fill h hp]; exact hr.parse hrl, ?_⟩
  rw [sameCode_fill_iff h hp hr (hr.prints hrl) (clause_reprint ps).symm, codes_reprint_iff hp]

/-- `SELECT a`, two line comments, and one more item. -/
def commentedList : List Passage :=
  [⟨.slot .select, ⟨.clause, "SELECT"⟩,
    [[space, ⟨.identifier, "a"⟩, space, ⟨.comment, "-- x"⟩, lineBreak, ⟨.comment, "-- y"⟩, lineBreak],
      [space, ⟨.identifier, "b"⟩, space]]⟩,
    ⟨.source, ⟨.clause, "FROM"⟩, [[space, ⟨.identifier, "t"⟩]]⟩]

theorem parse_print_loses_comma : ∃ q r, parse "SELECT a -- x\n-- y\n, b FROM t" = .ok q ∧ parse q.print = .ok r ∧
    ¬ q.SameCode r := by
  have hl : Lexed (statement commentedList) := by decide +kernel
  have hs : tokens? "SELECT a -- x\n-- y\n, b FROM t" = .ok (statement commentedList) :=
    tokens?_eq_ok_iff.2 ⟨by decide +kernel, hl⟩
  obtain ⟨q, r, hq, hr, h⟩ := parse_print_comments_iff hs (by decide +kernel)
  refine ⟨q, r, hq, hr, fun e ↦ h.1 e _ List.mem_cons_self ⟨rfl, _, List.mem_cons_self, ?_⟩⟩
  exact ⟨[⟨.identifier, "a"⟩], ⟨.comment, "-- x"⟩, ⟨.comment, "-- y"⟩, by decide⟩

end

end QueryTemplate
