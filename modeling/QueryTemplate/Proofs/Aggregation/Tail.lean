import Mathlib.Data.List.Chain
import QueryTemplate.Aggregation.Tail
import QueryTemplate.Proofs.Token.Split
namespace QueryTemplate

open Token Grammar Fragment

namespace TailClause

/-- Whether a trailing clause has its place ahead of another one. -/
def Before (p c : TailClause) : Prop := p.rank < c.rank

instance : DecidableRel Before := fun _ _ ↦ inferInstanceAs (Decidable (_ < _))

instance : Trans Before Before Before := ⟨Nat.lt_trans⟩

theorem nodup_of_isChain {cs : List TailClause} (h : cs.IsChain Before) : cs.Nodup :=
  h.pairwise.imp fun {p c} hpc ↦ by
    rintro rfl
    exact Nat.lt_irrefl _ hpc

variable {c : TailClause} {t : Token} {r : Text}

/-- Whether a token opens a trailing clause. -/
def opensTail (t : Token) : Bool := (ofToken? t).isSome

theorem of_ofToken? (h : ofToken? t = some c) :
    t.kind = (if c = settings then Kind.identifier else Kind.clause) ∧ t.keyword = c.keyword := by
  have hc := List.find?_some h
  simp only [Bool.and_eq_true, decide_eq_true_eq] at hc
  exact ⟨hc.2, hc.1.symm⟩

theorem kind_of_opensTail (h : opensTail t = true) : t.kind = .clause ∨ t.kind = .identifier ∧ t.keyword = "settings" := by
  obtain ⟨c, hc⟩ := Option.isSome_iff_exists.1 h
  obtain ⟨hk, hw⟩ := of_ofToken? hc
  split at hk
  · subst c
    exact .inr ⟨hk, hw⟩
  · exact .inl hk

/-- No phrase goes on with `SETTINGS`, and none with a clause keyword. -/
theorem severs_of_opensTail (h : t.ReadBefore r) (ht : opensTail t = true) : Severs (t.text ++ r) := by
  rcases kind_of_opensTail ht with hk | ⟨hk, hw⟩
  · exact h.severs_of_clause hk
  · refine h.severs_of (by simp [Token.isBlank, hk]) fun hword ↦ ?_
    rw [h.keyword_eq hword] at hw
    have hl : leadingWords t.text = ["settings".toList] :=
      eq_of_join_eq (fun _ ↦ space_not_mem_leadingWords) (by decide) (leadingWords_ne_nil _)
        (List.cons_ne_nil _ _) hw
    rw [hl]
    decide

end TailClause

/-- The trailing clauses that some tokens open. -/
def tailClauses (ts : List Located) : List TailClause := ts.filterMap fun t ↦ TailClause.ofToken? t.toToken

namespace Tail

open TailClause

variable {x : Tail} {c p : TailClause} {s : Text} {ts : List Token} {parts : List (TailClause × List Token)}

@[simp] theorem get_set (x : Tail) (s : Text) (c : TailClause) : (x.set s c).get c = some s := by cases c <;> rfl

theorem get_set_of_ne (x : Tail) (s : Text) (h : p ≠ c) : (x.set s c).get p = x.get p := by
  cases c <;> cases p <;> simp_all [set, get]

/-- The clauses with the texts of some parts entered one after the other. -/
def enter (x : Tail) (parts : List (TailClause × List Token)) : Tail :=
  parts.foldl (fun x p ↦ x.set (Text.trim (textOf p.2)) p.1) x

theorem enter_cons (x : Tail) (p : TailClause × List Token) (parts : List (TailClause × List Token)) :
    x.enter (p :: parts) = (x.set (Text.trim (textOf p.2)) p.1).enter parts := rfl

theorem get_enter_of_not_mem (h : c ∉ parts.map Prod.fst) : (x.enter parts).get c = x.get c := by
  induction parts generalizing x with
  | nil => rfl
  | cons p parts ih =>
    rw [List.map_cons, List.mem_cons, not_or] at h
    rw [enter_cons, ih h.2, get_set_of_ne _ _ h.1]

/-- No text is overwritten if no clause is there twice. -/
theorem get_enter_of_mem (hn : (parts.map Prod.fst).Nodup) (h : (c, ts) ∈ parts) :
    (x.enter parts).get c = some (Text.trim (textOf ts)) := by
  induction parts generalizing x with
  | nil => cases h
  | cons p parts ih =>
    obtain ⟨hp, hn⟩ := List.nodup_cons.1 hn
    rw [enter_cons]
    rcases List.mem_cons.1 h with rfl | h
    · rw [get_enter_of_not_mem hp, get_set]
    · exact ih hn h

/-- Clauses in their order are all entered. -/
theorem collect_of_isChain {o : Option TailClause}
    (h : (o.toList ++ parts.map Prod.fst).IsChain Before) : collect o x parts = .ok (x.enter parts) := by
  induction parts generalizing o x with
  | nil => rfl
  | cons p parts ih =>
    obtain ⟨c, ts⟩ := p
    rw [enter_cons]
    cases o with
    | none => exact ih (o := some c) h
    | some p =>
      obtain ⟨hpc, h⟩ := List.isChain_cons_cons.1 h
      rw [collect, if_neg (Nat.not_le.2 hpc)]
      exact ih (o := some c) h

/-- Out of their order they are refused, with the first neighbours that are not in order in the error. -/
theorem collect_of_not_isChain {o : Option TailClause}
    (h : ¬(o.toList ++ parts.map Prod.fst).IsChain Before) :
    ∃ before p c after, o.toList ++ parts.map Prod.fst = before ++ p :: c :: after ∧
      (before ++ [p]).IsChain Before ∧ ¬p.Before c ∧
      collect o x parts = .error (.clauseOrder c.label p.label) := by
  induction parts generalizing o x with
  | nil => cases o <;> simp at h
  | cons q parts ih =>
    obtain ⟨c, ts⟩ := q
    cases o with
    | none => exact ih (o := some c) h
    | some p =>
      by_cases hpc : p.Before c
      · have hrest : ¬((some c).toList ++ parts.map Prod.fst).IsChain Before := fun hc ↦
          h (List.isChain_cons_cons.2 ⟨hpc, hc⟩)
        obtain ⟨before, p', c', after, he, hb, hnot, hcollect⟩ :=
          ih (x := x.set (Text.trim (textOf ts)) c) hrest
        refine ⟨p :: before, p', c', after, congrArg (p :: ·) he, ?_, hnot, ?_⟩
        · refine List.isChain_cons.2 ⟨fun q hq ↦ ?_, hb⟩
          have hhead : (before ++ [p']).head? = some c := by
            have := congrArg List.head? he
            cases before <;> simpa using this.symm
          exact Option.some.inj (hhead.symm.trans hq) ▸ hpc
        · rw [collect, if_neg (Nat.not_le.2 hpc)]
          exact hcollect
      · exact ⟨[], p, c, parts.map Prod.fst, rfl, List.isChain_singleton p, hpc,
          by rw [collect, if_pos (Nat.not_lt.1 hpc)]⟩

/-- The clauses that a source is cut into, with their tokens. -/
def partsOf (ts : List Token) : List (TailClause × List Token) :=
  (sections opensTail 0 ts).parts.filterMap fun p ↦ (ofToken? p.1).map fun c ↦ (c, p.2)

theorem tailClauses_outsideAt (d n : Nat) (ts : List Token) :
    tailClauses (outsideAt d n ts) = (sections opensTail d ts).parts.filterMap fun p ↦ ofToken? p.1 := by
  induction ts generalizing d n with
  | nil => rfl
  | cons t ts ih =>
    have ih := ih (after (standing d t) t) (n + Text.bytes t.text)
    rw [tailClauses] at ih
    rw [outsideAt_cons, tailClauses, List.filterMap_append, ih, sections]
    cases ht : ofToken? t with
    | none =>
      have ho : opensTail t = false := by rw [opensTail, ht]; rfl
      split <;> simp [ho, ht]
    | some c =>
      have ho : opensTail t = true := by rw [opensTail, ht]; rfl
      have hb : t.isBlank = false := by
        rcases kind_of_opensTail ho with hk | ⟨hk, -⟩ <;> simp [Token.isBlank, hk]
      by_cases hd : standing d t = 0 <;> simp [hd, ho, hb, ht]

theorem tailClauses_of_tokens (ts : List Token) : tailClauses (outsideAt 0 0 ts) = (partsOf ts).map Prod.fst := by
  rw [tailClauses_outsideAt, partsOf, List.map_filterMap]
  simp [Option.map_map, Function.comp_def]

theorem snd_partsOf (ts : List Token) : (partsOf ts).map Prod.snd = (sections opensTail 0 ts).parts.map Prod.snd := by
  rw [partsOf, List.map_filterMap, ← List.filterMap_eq_map]
  refine List.filterMap_congr fun p hp ↦ ?_
  obtain ⟨c, hc⟩ := Option.isSome_iff_exists.1 (heading_of_mem_parts ts p hp)
  rw [hc]
  rfl

theorem split_eq (h : tokens? s = .ok ts) :
    split s = (collect none {} (partsOf ts)).map fun x ↦ (textOf (sections opensTail 0 ts).lead, x) := by
  rw [split, h]
  rfl

/-- Whether no trailing clause opens in a text outside of all parentheses. -/
def Uncut (s : Text) : Prop := ∃ ts, outsideTokens s = .ok ts ∧ tailClauses ts = []

theorem uncut_of_covered (h : Lexed ts) (hc : Covered opensTail 0 ts) : Uncut (textOf ts) := by
  refine ⟨outsideAt 0 0 ts, outsideTokens_of_tokens (tokens?_eq_ok_iff.2 ⟨rfl, h⟩), ?_⟩
  rw [tailClauses_outsideAt, show (sections opensTail 0 ts).parts = [] from hc, List.filterMap_nil]

/-- Neither the white space around a piece nor a comment in it hides a trailing clause. -/
theorem uncut_trim (h : Lexed ts) (hc : Covered opensTail 0 ts) : Uncut (Text.trim (textOf ts)) := by
  obtain ⟨us, hl, htext, hcode⟩ := h.exists_trim
  refine htext ▸ uncut_of_covered hl (hc.of_code (fun t ht ↦ ?_) hcode)
  rcases kind_of_opensTail ht with hk | ⟨hk, -⟩ <;> simp [hk]

/-- A piece between two trailing clauses, or before the first one, has none of its own. -/
theorem lexed_of_mem_runs (h : Lexed ts) :
    ∀ r ∈ splitOutside opensTail ts, Lexed r ∧ Covered opensTail 0 r := by
  refine lexed_of_mem_severed (fun t r ht hr ↦ severs_of_opensTail hr ht) (fun t ht ↦ ?_) h
  rcases kind_of_opensTail ht with hk | ⟨hk, -⟩ <;> simp [after, Token.isOpenParen, hk]

theorem isSome_get_enter (hn : (parts.map Prod.fst).Nodup) (c : TailClause) :
    ((({} : Tail).enter parts).get c).isSome ↔ c ∈ parts.map Prod.fst := by
  constructor
  · intro h
    by_contra hc
    rw [get_enter_of_not_mem hc] at h
    cases c <;> cases h
  · intro h
    obtain ⟨⟨c, ts⟩, hp, rfl⟩ := List.mem_map.1 h
    rw [get_enter_of_mem hn hp]
    rfl

/-- A source is cut exactly at its trailing clauses outside of all parentheses if each has its place before
the next. If not, the first two that do not are in the error. -/
theorem split_partition (h : tokens? s = .ok ts) :
    ∃ heads, outsideTokens s = .ok heads ∧
      (¬(tailClauses heads).IsChain Before →
        ∃ before p c after, tailClauses heads = before ++ p :: c :: after ∧
          (before ++ [p]).IsChain Before ∧ ¬p.Before c ∧ split s = .error (.clauseOrder c.label p.label)) ∧
      ((tailClauses heads).IsChain Before →
        (tailClauses heads).Nodup ∧ ∃ body x raws, split s = .ok (body, x) ∧
          (∀ c, (x.get c).isSome ↔ c ∈ tailClauses heads) ∧
          Uncut body ∧ (∀ c f, x.get c = some f → Uncut f) ∧
          Stitched 0 (body :: raws) (heads.filter fun t ↦ opensTail t.toToken) s ∧
          (tailClauses heads).map x.get = raws.map fun r ↦ some (Text.trim r)) := by
  obtain ⟨rfl, hl⟩ := tokens?_eq_ok_iff.1 h
  refine ⟨outsideAt 0 0 ts, outsideTokens_of_tokens h, ?_, ?_⟩
  all_goals rw [tailClauses_of_tokens, split_eq h]
  · intro hc
    obtain ⟨before, p, c, after, he, hb, hpc, hcollect⟩ := collect_of_not_isChain (o := none) (x := {}) hc
    exact ⟨before, p, c, after, he, hb, hpc, by rw [hcollect]; rfl⟩
  · intro hc
    have hn := nodup_of_isChain hc
    obtain ⟨hlead, hruns⟩ := List.forall_mem_cons.1 (lexed_of_mem_runs hl)
    have hs := stitched_sections (p := opensTail) (fun t ht ↦ ?_) 0 0 ts
    refine ⟨hn, _, ({} : Tail).enter (partsOf ts), (partsOf ts).map fun p ↦ textOf p.2,
      by rw [collect_of_isChain (o := none) hc]; rfl, isSome_get_enter hn, uncut_of_covered hlead.1 hlead.2, ?_, ?_, ?_⟩
    · intro c f hf
      obtain ⟨⟨c, r⟩, hp, rfl⟩ := List.mem_map.1 ((isSome_get_enter hn c).1 (hf ▸ rfl))
      rw [get_enter_of_mem hn hp] at hf
      obtain ⟨hr, hcov⟩ := hruns r (snd_partsOf ts ▸ List.mem_map_of_mem hp)
      exact Option.some.inj hf ▸ uncut_trim hr hcov
    · have he := congrArg (List.map textOf) (snd_partsOf ts)
      rw [List.map_map] at he
      rw [Sections.runs, List.map_cons, ← he] at hs
      exact hs
    · rw [List.map_map, List.map_map]
      exact List.map_congr_left fun p hp ↦ get_enter_of_mem hn hp
    · rcases kind_of_opensTail ht with hk | ⟨hk, -⟩ <;> simp [Token.isBlank, hk]

theorem split_partition_subquery :
    let s : Text := "FROM (SELECT a FROM b LIMIT 1) /* LIMIT 2 */ GROUP BY t SETTINGS x = 1 FORMAT JSON "
    let r : Text := "FROM a LIMIT 1 BY b HAVING c LIMIT 2"
    (∃ body x raws heads, split s = .ok (body, x) ∧ Stitched 0 (body :: raws) heads s ∧
      [TailClause.groupBy, .settings, .format].map x.get = raws.map fun r ↦ some (Text.trim r)) ∧
    ∃ p c : TailClause, ¬p.Before c ∧ split r = .error (.clauseOrder c.label p.label) := by
  intro s r
  let ts : List Token := [⟨.clause, "FROM"⟩, space, ⟨.opening, "("⟩, ⟨.clause, "SELECT"⟩, space,
    ⟨.identifier, "a"⟩, space, ⟨.clause, "FROM"⟩, space, ⟨.identifier, "b"⟩, space, ⟨.clause, "LIMIT"⟩, space,
    ⟨.number, "1"⟩, ⟨.closing, ")"⟩, space, ⟨.comment, "/* LIMIT 2 */"⟩, space, ⟨.clause, "GROUP BY"⟩, space,
    ⟨.identifier, "t"⟩, space, ⟨.identifier, "SETTINGS"⟩, space, ⟨.identifier, "x"⟩, space, ⟨.operator, "="⟩,
    space, ⟨.number, "1"⟩, space, ⟨.clause, "FORMAT"⟩, space, ⟨.identifier, "JSON"⟩, space]
  let us : List Token := [⟨.clause, "FROM"⟩, space, ⟨.identifier, "a"⟩, space, ⟨.clause, "LIMIT"⟩, space,
    ⟨.number, "1"⟩, space, ⟨.identifier, "BY"⟩, space, ⟨.identifier, "b"⟩, space, ⟨.clause, "HAVING"⟩, space,
    ⟨.identifier, "c"⟩, space, ⟨.clause, "LIMIT"⟩, space, ⟨.number, "2"⟩]
  have hs : tokens? s = .ok ts := tokens?_eq_ok_iff.2 ⟨rfl, by decide +kernel⟩
  have hr : tokens? r = .ok us := tokens?_eq_ok_iff.2 ⟨rfl, by decide +kernel⟩
  constructor
  · obtain ⟨heads, hheads, -, hcut⟩ := split_partition hs
    obtain rfl := Except.ok.inj ((outsideTokens_of_tokens hs).symm.trans hheads)
    have hc : tailClauses (outsideAt 0 0 ts) = [.groupBy, .settings, .format] := by decide
    rw [hc] at hcut
    obtain ⟨-, body, x, raws, hsplit, -, -, -, hstitched, hraws⟩ := hcut (by decide)
    exact ⟨body, x, raws, _, hsplit, hstitched, hraws⟩
  · obtain ⟨heads, hheads, herror, -⟩ := split_partition hr
    obtain rfl := Except.ok.inj ((outsideTokens_of_tokens hr).symm.trans hheads)
    have hc : tailClauses (outsideAt 0 0 us) = [.limit, .having, .limit] := by decide
    obtain ⟨-, p, c, -, -, -, hpc, hsplit⟩ := herror (by rw [hc]; decide)
    exact ⟨p, c, hpc, hsplit⟩

end Tail
end QueryTemplate
