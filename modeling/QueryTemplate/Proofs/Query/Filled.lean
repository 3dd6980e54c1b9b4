import QueryTemplate.Proofs.Query.Agreement
import QueryTemplate.Proofs.Query.Arguments
import QueryTemplate.Proofs.Query.Readable
import QueryTemplate.Proofs.Query.Roundtrip
namespace QueryTemplate

open Token Fragment

variable {c e : Clause} {cs : List Clause} {d : Draft} {p : Token × List Token} {part : Clause → Option (Token × List Token)}
  {gs hs ts us : List Token} {q r : Query} {xs : List Text}

theorem fills_nil : Fills [] [] := fun {_ d _} hd _ _ ↦ ⟨d, rfl, hd⟩

theorem ReadsTo.blanks (h : ReadsTo c false {} ts xs) (hg : ∀ g ∈ gs, g.isBlank = true) : ReadsTo c false {} (gs ++ ts) xs := by
  obtain ⟨ys, k, h, rfl⟩ := h
  refine ⟨ys, k, ?_, rfl⟩
  induction gs with
  | nil => exact h
  | cons g gs ih =>
    obtain ⟨hg, hgs⟩ := List.forall_mem_cons.1 hg
    exact .blank hg (ih hgs)

/-- A clause that is a list: its keyword and the tokens after it. -/
structure IsPart (c : Clause) (p : Token × List Token) : Prop where
  heading : p.1.kind = .clause
  keyword : Clause.ofKeyword? p.1.keyword = some c
  balanced : Balanced p.2
  covered : Covered isReserved 0 p.2
  code : ∀ t ∈ p.2, t.kind ≠ .comment
  inked : inked p.2 ≠ []
  table : c = .source → ∀ t ∈ (p.2.dropWhile isBlank).head?, t.isOpenParen = false ∧ t.isComma = false

namespace IsPart

theorem core_ne_nil (h : IsPart c p) : core p.2 ≠ [] := fun e ↦ h.inked (by rw [← inked_core, e, inked_nil])

theorem noGroup (h : IsPart c p) (us : List Token) : NoGroup (p.1 :: us) := by
  have hb : p.1.isBlank = false := by simp [Token.isBlank, h.heading]
  exact (noGroup_cons hb us).2 (by simp [isOpenParen, h.heading])

/-- The tokens of a clause are read as items where the query is read. -/
theorem exists_readsTo (h : IsPart c p) (hl : ∀ t ∈ p.2, Lexical t) (hu : NoGroup us)
    (hq : parseTokens [] (p.2 ++ us) ⟨q.assign [] c, c, {}⟩ = .ok r) : ∃ xs, ReadsTo c false {} (core p.2) xs := by
  obtain ⟨gs, hs, he, hg, hh⟩ := exists_core p.2
  have hsub := core_sublist p.2
  obtain ⟨t, ts, ht⟩ := List.exists_cons_of_ne_nil h.core_ne_nil
  have hfaces : Draft.Faces c false 0 (core p.2) ⟨q.assign [] c, c, {}⟩ := by
    refine ⟨⟨rfl, fun e ↦ ⟨[], by subst e; rfl, nofun⟩⟩, trimmed_empty, rfl, balanced_core h.balanced, covered_core h.covered,
      fun t ht ↦ ⟨hl t (hsub.subset ht), h.code t (hsub.subset ht)⟩, fun hc _ _ ↦ ?_⟩
    have htable := h.table hc
    have hhead : t.isBlank = false := head_core t (by rw [ht]; rfl)
    rw [he, List.dropWhile_append_of_pos hg, ht, List.cons_append, List.dropWhile_cons_of_neg (by simp [hhead])] at htable
    rw [ht, List.dropWhile_cons_of_neg (by simp [hhead])]
    exact htable
  rw [he, List.append_assoc, parse_blanks hg, List.append_assoc] at hq
  obtain ⟨ys, g, hr⟩ := hfaces.exists_reads (noGroup_blanks hh hu) hq
  exact ⟨_, ys, g, hr, rfl⟩

theorem isBlank (h : IsPart c p) : p.1.isBlank = false := by simp [Token.isBlank, h.heading]

theorem inked_ne_nil (h : IsPart c p) : QueryTemplate.inked (p.1 :: p.2) ≠ [] := by
  rw [inked_cons h.isBlank]
  exact List.cons_ne_nil _ _

end IsPart

/-- A clause that is read as the items `xs`. -/
structure Part (c : Clause) (p : Token × List Token) (xs : List Text) : Prop extends IsPart c p where
  reads : ReadsTo c false {} (core p.2) xs

/-- White space behind a clause is no part of what is read. -/
theorem Part.fills (h : Part c p xs) : Fills (p.1 :: trimmed p.2) [.items c xs] := by
  obtain ⟨gs, hs, he, hg, hh⟩ := exists_core p.2
  have hgap : ∀ t ∈ (trimmed p.2).takeWhile isBlank, t.isBlank = true := fun t ht ↦ List.mem_takeWhile_imp ht
  have hb : Balanced (trimmed p.2) := by
    rw [← List.takeWhile_append_dropWhile (p := isBlank) (l := trimmed p.2), Balanced, depthRun_append, depthRun_blanks hgap]
    exact balanced_core h.balanced
  have hr := h.reads.blanks hgap
  rw [core, List.takeWhile_append_dropWhile] at hr
  have hfill : Fills (p.1 :: trimmed p.2) [.items c xs] := fills_items h.heading h.keyword hr hb
  exact @hfill

theorem Part.fills_spaced (h : Part c p xs) : Fills (p.1 :: p.2) [.items c xs] := by
  intro q d us hd ha hu
  have hgap : ∀ t ∈ blankEnd p.2, t.isBlank = true := fun t ht ↦ isBlank_of_mem_blankEnd ht
  obtain ⟨d', hd', he⟩ := h.fills hd ha (noGroup_blanks hgap hu)
  have e : p.1 :: p.2 ++ us = p.1 :: trimmed p.2 ++ (blankEnd p.2 ++ us) := by
    rw [List.cons_append, List.cons_append, ← List.append_assoc, trimmed_append_blankEnd]
  exact ⟨d', by rw [e, hd', parse_blanks hgap], he⟩

namespace Query

/-- Some clauses of a query are still closed. -/
structure Awaits (q : Query) (cs : List Clause) : Prop where
  order : ∀ c ∈ cs, c ∈ Clause.printOrder
  nodup : cs.Nodup
  closed : ∀ c ∈ cs, q.has c = false
  aliases : q.has (.slot .aliases) = false

/-- The clauses with the items that some of them have. -/
def fillings (cs : List Clause) (x : Clause → Option (List Text)) : List Filling :=
  cs.filterMap fun c ↦ (x c).map (.items c)

variable {x : Clause → Option (List Text)}

theorem map_clause_fillings (cs : List Clause) (x : Clause → Option (List Text)) :
    ((fillings cs x).map Filling.clause).Sublist cs := by
  induction cs with
  | nil => exact .slnil
  | cons c cs ih =>
    rw [fillings, List.filterMap_cons]
    cases x c with
    | none => exact ih.cons c
    | some xs => exact ih.cons_cons c

namespace Awaits

theorem tail (h : q.Awaits (c :: cs)) : q.Awaits cs :=
  ⟨(List.forall_mem_cons.1 h.order).2, (List.nodup_cons.1 h.nodup).2, (List.forall_mem_cons.1 h.closed).2, h.aliases⟩

theorem put (h : q.Awaits (c :: cs)) (xs : List Text) : (q.put (.items c xs)).Awaits cs := by
  obtain ⟨hc, ho⟩ := List.forall_mem_cons.1 h.order
  obtain ⟨hn, hnodup⟩ := List.nodup_cons.1 h.nodup
  obtain ⟨hl, ha⟩ := isListed_of_order hc
  refine ⟨ho, hnodup, fun e he ↦ ?_, ?_⟩
  · have hne : e ≠ c := fun h ↦ hn (h ▸ he)
    rw [Query.put, has_assign hl, decide_eq_false hne, Bool.false_or]
    exact h.closed e (List.mem_cons_of_mem _ he)
  · rw [Query.put, has_assign hl, decide_eq_false (Ne.symm ha), Bool.false_or]
    exact h.aliases

theorem accepts (h : q.Awaits cs) (x : Clause → Option (List Text)) : q.Accepts (fillings cs x) := by
  have hsub := map_clause_fillings cs x
  have hmem : ∀ y ∈ fillings cs x, y.clause ∈ cs := fun y hy ↦ hsub.subset (List.mem_map_of_mem hy)
  exact ⟨fun y hy ↦ h.order _ (hmem y hy), hsub.nodup h.nodup, fun y hy ↦ h.closed _ (hmem y hy), fun _ ↦ h.aliases⟩

end Awaits

theorem cell_assign_of_ne (hc : c.isListed = true) (he : e ≠ c) (xs : List Text) : (q.assign xs c).cell e = q.cell e := by
  cases c with
  | slot s =>
    cases e with
    | slot t => exact congrArg (Option.map Source.table) (q.slots.get_set_of_ne xs fun h ↦ he (by rw [h]))
    | root | source | unions | call => rfl
  | source => cases e <;> first | rfl | exact absurd rfl he
  | root | unions | call => cases hc

/-- A clause holds what was put into it. -/
theorem cell_puts (h : q.Awaits cs) (x : Clause → Option (List Text)) (e : Clause) :
    (q.puts (fillings cs x)).cell e = if e ∈ cs then (x e).map .table else q.cell e := by
  induction cs generalizing q with
  | nil => rfl
  | cons c cs ih =>
    obtain ⟨hl, -⟩ := isListed_of_order (h.order c List.mem_cons_self)
    rw [fillings, List.filterMap_cons]
    by_cases hmem : e ∈ cs
    · rw [if_pos (List.mem_cons_of_mem _ hmem)]
      cases x c with
      | none => exact (ih h.tail).trans (if_pos hmem)
      | some xs => exact (ih (h.put xs)).trans (if_pos hmem)
    by_cases he : e = c
    · subst he
      rw [if_pos List.mem_cons_self]
      cases x e with
      | none =>
        have hkeyword : ∀ c ∈ Clause.printOrder, c ∈ Clause.keywordClauses := by decide
        have hclosed := h.closed e List.mem_cons_self
        rw [has_eq_isSome_cell (hkeyword e (h.order e List.mem_cons_self)) (by rintro rfl; cases hl)] at hclosed
        exact (ih h.tail).trans ((if_neg hmem).trans (by simpa using hclosed))
      | some xs => exact (ih (h.put xs)).trans ((if_neg hmem).trans (cell_assign hl xs))
    · rw [if_neg (by simp [he, hmem])]
      cases x c with
      | none => exact (ih h.tail).trans (if_neg hmem)
      | some xs => exact (ih (h.put xs)).trans ((if_neg hmem).trans (cell_assign_of_ne hl he xs))

end Query

/-- What is not white space keeps the white space before it. -/
theorem trimmed_append (a : List Token) (hb : inked us ≠ []) : trimmed (a ++ us) = a ++ trimmed us := by
  have hlast : ∀ t ∈ (a ++ trimmed us).getLast?, t.isBlank = false := by
    have hne : trimmed us ≠ [] := fun e ↦ hb (by rw [← inked_trimmed, e, inked_nil])
    intro t ht
    rw [List.getLast?_append_of_ne_nil _ hne, List.getLast?_eq_some_getLast hne] at ht
    obtain rfl := Option.some.inj ht
    exact Bool.eq_false_iff.2 (List.rdropWhile_last_not _ us hne)
  have h : trimmed (a ++ trimmed us ++ blankEnd us) = a ++ trimmed us :=
    trimmed_append_blanks hlast fun t ht ↦ isBlank_of_mem_blankEnd ht
  rwa [List.append_assoc, trimmed_append_blankEnd] at h

variable {x : Clause → Option (List Text)}

theorem exists_isPart (h : ∀ c ∈ cs, Option.Rel (Part c) (part c) (x c)) : ∀ p ∈ cs.filterMap part, ∃ c, IsPart c p := by
  intro p hp
  obtain ⟨c, hc, hcp⟩ := List.mem_filterMap.1 hp
  have hrel := h c hc
  rw [Option.mem_def.1 hcp] at hrel
  generalize x c = y at hrel
  cases hrel with | some hpart => exact ⟨c, hpart.toIsPart⟩

/-- Clauses start with a keyword. -/
theorem noGroup_listed {ps : List (Token × List Token)} (hp : ∀ p ∈ ps, ∃ c, IsPart c p) (hu : NoGroup us) :
    NoGroup (clauseTokens ps ++ us) ∧ NoGroup (trimmed (clauseTokens ps) ++ us) ∧ (ps ≠ [] → inked (clauseTokens ps) ≠ []) := by
  cases ps with
  | nil => exact ⟨hu, hu, fun e ↦ absurd rfl e⟩
  | cons p ps =>
    obtain ⟨c, h⟩ := hp p List.mem_cons_self
    have e : clauseTokens (p :: ps) = [p.1] ++ (p.2 ++ clauseTokens ps) := rfl
    have hink : inked (p.2 ++ clauseTokens ps) ≠ [] := by
      rw [inked_append]
      exact fun e ↦ h.inked (List.append_eq_nil_iff.1 e).1
    refine ⟨h.noGroup _, ?_, fun _ ↦ ?_⟩
    · rw [e, trimmed_append _ hink]
      exact h.noGroup _
    · rw [e, inked_append]
      exact fun e ↦ hink (List.append_eq_nil_iff.1 e).2

/-- A clause before others. -/
theorem Part.fills_cons {fs : List Filling} (h : Part c p xs) (hts : Fills (trimmed ts) fs) (hi : ts ≠ [] → inked ts ≠ [])
    (hno : ∀ us, NoGroup us → NoGroup (trimmed ts ++ us)) : Fills (trimmed (p.1 :: p.2 ++ ts)) (.items c xs :: fs) := by
  have hfirst : Fills (p.1 :: trimmed p.2) [.items c xs] := h.fills
  have hlast : trimmed (p.1 :: p.2) = p.1 :: trimmed p.2 := trimmed_append [p.1] h.inked
  intro q d us hd ha hu
  by_cases hn : ts = []
  · subst hn
    have hall : Fills (p.1 :: trimmed p.2 ++ trimmed []) ([.items c xs] ++ fs) := hfirst.append hts hno
    rw [List.append_nil, hlast, ← List.append_nil (p.1 :: _)]
    exact hall hd ha hu
  · have hgap : Fills (blankEnd p.2) [] := fills_blanks fun t ht ↦ isBlank_of_mem_blankEnd ht
    have hrest : Fills (blankEnd p.2 ++ trimmed ts) ([] ++ fs) := hgap.append hts hno
    have hall : Fills (p.1 :: trimmed p.2 ++ (blankEnd p.2 ++ trimmed ts)) ([.items c xs] ++ ([] ++ fs)) :=
      hfirst.append hrest fun us hu ↦ by
        rw [List.append_assoc]
        exact noGroup_blanks (fun t ht ↦ isBlank_of_mem_blankEnd ht) (hno us hu)
    have e : trimmed (p.1 :: p.2 ++ ts) = p.1 :: trimmed p.2 ++ (blankEnd p.2 ++ trimmed ts) := by
      rw [trimmed_append _ (hi hn), List.cons_append, List.cons_append, ← List.append_assoc, trimmed_append_blankEnd]
    rw [e]
    exact hall hd ha hu

/-- Clauses with their items, up to the white space at the end. -/
theorem fills_trimmed (h : ∀ c ∈ cs, Option.Rel (Part c) (part c) (x c)) :
    Fills (trimmed (clauseTokens (cs.filterMap part))) (Query.fillings cs x) := by
  induction cs with
  | nil => exact fills_nil
  | cons c cs ih =>
    obtain ⟨hc, hcs⟩ := List.forall_mem_cons.1 h
    have hrest : Fills (trimmed (clauseTokens (cs.filterMap part))) (Query.fillings cs x) := ih hcs
    have hparts := exists_isPart hcs
    rw [Query.fillings, List.filterMap_cons, List.filterMap_cons]
    generalize part c = o, x c = y at hc
    cases hc with
    | none => exact @hrest
    | @some p xs hpart =>
      have hink : clauseTokens (cs.filterMap part) ≠ [] → inked (clauseTokens (cs.filterMap part)) ≠ [] := fun hne ↦
        (noGroup_listed hparts noGroup_nil).2.2 fun e ↦ hne (by rw [e]; rfl)
      have hall : Fills (trimmed (p.1 :: p.2 ++ clauseTokens (cs.filterMap part))) (.items c xs :: Query.fillings cs x) :=
        hpart.fills_cons hrest hink fun us hu ↦ (noGroup_listed hparts hu).2.1
      exact @hall

theorem fills_parts (h : ∀ c ∈ cs, Option.Rel (Part c) (part c) (x c)) :
    Fills (clauseTokens (cs.filterMap part)) (Query.fillings cs x) := by
  have hgap : Fills (blankEnd (clauseTokens (cs.filterMap part))) [] := fills_blanks fun t ht ↦ isBlank_of_mem_blankEnd ht
  intro q d us hd ha hu
  have hall : Fills (trimmed (clauseTokens (cs.filterMap part)) ++ blankEnd (clauseTokens (cs.filterMap part))) (Query.fillings cs x ++ []) :=
    Fills.append (fills_trimmed h) hgap fun us hu ↦ noGroup_blanks (fun t ht ↦ isBlank_of_mem_blankEnd ht) hu
  rw [trimmed_append_blankEnd, List.append_nil] at hall
  exact hall hd ha hu

/-- The clauses that a query is read from are read as items. -/
theorem exists_items {d : Draft} (h : ∀ c ∈ cs, ∀ p ∈ part c, IsPart c p) (hl : ∀ t ∈ clauseTokens (cs.filterMap part), Lexical t)
    (hd : d.Ends q) (ha : q.Awaits cs) (hg : ∀ g ∈ gs, g.isBlank = true)
    (hr : parseTokens [] (clauseTokens (cs.filterMap part) ++ gs) d = .ok r) :
    ∃ x : Clause → Option (List Text), ∀ c ∈ cs, Option.Rel (Part c) (part c) (x c) := by
  induction cs generalizing q d with
  | nil => exact ⟨fun _ ↦ none, nofun⟩
  | cons c cs ih =>
    obtain ⟨hc, hcs⟩ := List.forall_mem_cons.1 h
    -- the items of the other clauses, and those of this one
    have hput : ∀ {x : Clause → Option (List Text)} {y}, Option.Rel (Part c) (part c) y →
        (∀ e ∈ cs, Option.Rel (Part e) (part e) (x e)) → ∃ x : Clause → Option (List Text), ∀ e ∈ c :: cs, Option.Rel (Part e) (part e) (x e) := by
      intro x y hy hx
      have hn := (List.nodup_cons.1 ha.nodup).1
      refine ⟨Function.update x c y, List.forall_mem_cons.2 ⟨by rwa [Function.update_self], fun e he ↦ ?_⟩⟩
      have hne : e ≠ c := by
        rintro rfl
        exact hn he
      rw [Function.update_of_ne hne]
      exact hx e he
    rw [List.filterMap_cons] at hl hr
    cases hp : part c with
    | none =>
      rw [hp] at hl hr
      obtain ⟨x, hx⟩ := ih hcs hl hd ha.tail hr
      exact hput (y := none) (by rw [hp]; exact .none) hx
    | some p =>
      rw [hp] at hl hr
      have hpart := hc p hp
      have hparts : ∀ p ∈ cs.filterMap part, ∃ c, IsPart c p := fun p hp ↦ by
        obtain ⟨e, he, hep⟩ := List.mem_filterMap.1 hp
        exact ⟨e, hcs e he p hep⟩
      have hcl := (Query.isListed_of_order (ha.order c List.mem_cons_self)).1
      have hgs : NoGroup gs := by simpa using noGroup_blanks hg noGroup_nil
      have hno := (noGroup_listed hparts hgs).1
      have e : clauseTokens (p :: cs.filterMap part) ++ gs = p.1 :: (p.2 ++ (clauseTokens (cs.filterMap part) ++ gs)) := by
        simp [clauseTokens]
      have hopen := hr
      rw [e, hd.parse_heading hpart.heading hpart.keyword hcl (ha.closed c List.mem_cons_self)] at hopen
      obtain ⟨xs, hxs⟩ := hpart.exists_readsTo (fun t ht ↦ hl t (by simp [clauseTokens, ht])) hno hopen
      have hone : q.Accepts [.items c xs] := ⟨List.forall_mem_singleton.2 (ha.order c List.mem_cons_self),
        by simp, List.forall_mem_singleton.2 (ha.closed c List.mem_cons_self), fun _ ↦ ha.aliases⟩
      have hfirst : Fills (p.1 :: p.2) [.items c xs] := Part.fills_spaced ⟨hpart, hxs⟩
      obtain ⟨d', hd', hends⟩ := hfirst hd hone hno
      have e' : clauseTokens (p :: cs.filterMap part) ++ gs =
          p.1 :: p.2 ++ (clauseTokens (cs.filterMap part) ++ gs) := by
        simp [clauseTokens]
      rw [e', hd'] at hr
      obtain ⟨x, hx⟩ := ih hcs (fun t ht ↦ hl t (by
        rw [clauseTokens, List.flatMap_cons]
        exact List.mem_append_right _ ht)) hends (ha.put xs) hr
      exact hput (y := some xs) (by rw [hp]; exact .some ⟨hpart, hxs⟩) hx

end QueryTemplate
