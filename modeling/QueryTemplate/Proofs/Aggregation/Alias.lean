import QueryTemplate.Proofs.Aggregation.Column
import QueryTemplate.Proofs.Query.Arguments
namespace QueryTemplate

open Token Grammar Fragment

variable {p : Token → Bool} {d : Nat} {a b r ts lead : List Token} {t : Token} {pre post : List (Token × List Token)}

theorem covered_lead (p : Token → Bool) (d : Nat) (ts : List Token) : Covered p d (sections p d ts).lead := by
  cases hs : sections p d ts with
  | mk lead parts =>
    cases parts with
    | nil =>
      have := tokens_sections p d ts
      rw [hs, Sections.tokens, List.flatMap_nil, List.append_nil] at this
      rw [Covered, this, hs]
    | cons q parts => exact (sections_eq_cons hs).1

/-- A heading stands outside of all parentheses, and no other one stands there up to the next. -/
theorem sections_eq_append (h : sections p d ts = ⟨lead, pre ++ (t, r) :: post⟩) :
    standing (depthAfter d (lead ++ pre.flatMap fun q ↦ q.1 :: q.2)) t = 0 ∧ p t = true ∧ Covered p (after 0 t) r := by
  induction pre generalizing d ts lead with
  | nil =>
    obtain ⟨hlead, hd, ht, he⟩ := sections_eq_cons h
    have hrest := sections_cons_heading hd ht (r ++ post.flatMap fun q ↦ q.1 :: q.2)
    rw [he, sections_append hlead, hrest] at h
    obtain ⟨-, h⟩ := Sections.mk.inj h
    obtain ⟨h, -⟩ := List.cons.inj h
    refine ⟨by simpa using hd, ht, ?_⟩
    rw [← (Prod.mk.inj h).2]
    exact covered_lead _ _ _
  | cons q pre ih =>
    obtain ⟨u, v⟩ := q
    rw [List.cons_append] at h
    obtain ⟨hlead, hd, hu, he⟩ := sections_eq_cons h
    have hrest := sections_cons_heading hd hu (v ++ (pre ++ (t, r) :: post).flatMap fun q ↦ q.1 :: q.2)
    rw [he, sections_append hlead, hrest] at h
    obtain ⟨-, h⟩ := Sections.mk.inj h
    obtain ⟨hv, h⟩ := List.cons.inj h
    obtain ⟨h₁, h₂, h₃⟩ := ih (congrArg₂ Sections.mk (Prod.mk.inj hv).2 h)
    refine ⟨?_, h₂, h₃⟩
    rw [List.flatMap_cons, List.cons_append, depthAfter_append, depthAfter_cons, hd]
    exact h₁

/-- Where everything outside of parentheses is white space, there is nothing else. -/
theorem blanks_of_covered (h : Covered (!·.isBlank) 0 ts) : ∀ t ∈ ts, t.isBlank = true := by
  induction ts with
  | nil => nofun
  | cons t ts ih =>
    obtain ⟨ht, hts⟩ := covered_cons.1 h
    have hs : standing 0 t = 0 := by simp [standing]
    have hb : t.isBlank = true := by simpa using ht hs
    have hk : t.kind = .blank := by simpa [Token.isBlank] using hb
    rw [hs, after_of_kind (by simp [hk])] at hts
    exact List.forall_mem_cons.2 ⟨hb, ih hts⟩

/-- What is between the blanks around some tokens. -/
theorem isRun_core (hl : Lexed ts) (hc : ∀ t ∈ ts, t.kind ≠ .comment) (ho : opensComment ts = false) (hb : Balanced ts)
    (hi : inked ts ≠ []) : Aggregation.IsRun (core ts) := by
  obtain ⟨gs, hs, he, hg, hh⟩ := exists_core ts
  have hne : core ts ≠ [] := fun e ↦ hi (by rw [← inked_core, e, inked_nil])
  refine ⟨(tokens?_eq_ok_iff.1 (tokens_trim hl hc)).2, ⟨(core ts).getLast hne, List.getLast?_eq_some_getLast hne, ?_⟩, ?_, ?_⟩
  · refine last_trimmed hc _ ?_
    rw [← List.takeWhile_append_dropWhile (p := isBlank) (l := trimmed ts), ← core, List.getLast?_append_of_ne_nil _ hne]
    exact List.getLast?_eq_some_getLast hne
  · rw [he] at ho
    exact opensComment_left _ hs (opensComment_right gs _ ho)
  · exact balanced_core hb

/-- The tokens up to a parenthesis are read alone. -/
theorem Lexed.left_of_closeParen (h : Lexed ((a ++ [t]) ++ b)) (ht : t.isCloseParen = true) (ho : opensComment (a ++ [t]) = false) :
    Lexed (a ++ [t]) := by
  obtain ⟨k, u⟩ := t
  obtain ⟨rfl, rfl, hb, hw⟩ := isBlank_of_isCloseParen ht
  have hclose : Lexed [⟨.closing, [')']⟩] := by decide
  rw [List.append_assoc] at h
  refine (h.append_exchange hclose ⟨rfl, ?_, ?_⟩ (slashFree_append (opensComment_left _ _ ho) hclose.slashFree (by decide))).1
  · rw [List.singleton_append, tokenWords_symbol hb hw, tokenWords_symbol hb hw]
  · rfl

namespace Aggregation

/-- The start of an expression, up to a place where no parenthesis is open, and without white space at its end. -/
theorem IsTerm.core (h : IsTerm (a ++ b)) (ha : Lexed a) (hb : Balanced a) (hi : inked a ≠ []) : IsTerm (core a) where
  toIsRun := isRun_core ha (fun _ ht ↦ h.code (List.mem_append_left _ ht)) (opensComment_left a b h.opener) hb hi
  simple t ht := h.simple t (List.mem_append_left _ ((core_sublist a).subset ht))
  covered := covered_core (covered_append.1 h.covered).1
  head := head_core

/-- An alias is the last token outside of all parentheses. It comes after `AS` or after a parenthesis. -/
theorem splitAlias_eq_some {e k : Text} (hl : Lexed ts) (hs : splitAlias (textOf ts) = .ok (some (e, k))) :
    ∃ head before run last r, ts = head ++ before :: (run ++ last :: r) ∧ last.isName = true ∧ last.text = k ∧
      standing (depthAfter 0 head) before = 0 ∧ Covered (!·.isBlank) (after 0 before) run ∧
      standing (depthAfter 0 (head ++ before :: run)) last = 0 ∧ Covered (!·.isBlank) (after 0 last) r ∧
      ((before.kind = .identifier ∧ Text.lower before.text = "as" ∧ inked head ≠ [] ∧ e = Text.trim (textOf head)) ∨
        before.isCloseParen = true ∧ e = Text.trim (textOf (head ++ before :: run))) := by
  rw [splitAlias, outside, tokens?_eq_ok_iff.2 ⟨rfl, hl⟩, Except.map, Except.map] at hs
  have hs := Except.ok.inj hs
  cases hq : sections (!·.isBlank) 0 ts with
  | mk lead parts =>
  have htokens := tokens_sections (!·.isBlank) 0 ts
  rw [hq] at hs htokens
  split at hs
  · rename_i last r before run earlier hp
    obtain rfl : parts = earlier.reverse ++ [(before, run), (last, r)] := by
      have := congrArg List.reverse hp
      simpa using this
    obtain ⟨hd, -, hrun⟩ := sections_eq_append hq
    rw [List.append_cons] at hq
    obtain ⟨hd', -, hr⟩ := sections_eq_append hq
    have hname : last.isName = true := by
      by_contra hn
      rw [if_pos (by simpa [isName] using hn)] at hs
      cases hs
    rw [if_neg (by simpa [isName, or_iff_not_imp_left] using hname)] at hs
    suffices last.text = k ∧ ((before.kind = .identifier ∧ Text.lower before.text = "as" ∧
        inked (lead ++ earlier.reverse.flatMap fun q ↦ q.1 :: q.2) ≠ [] ∧
        e = Text.trim (textOf (lead ++ earlier.reverse.flatMap fun q ↦ q.1 :: q.2))) ∨
        before.isCloseParen = true ∧ e = Text.trim (textOf (lead ++ (earlier.reverse.flatMap fun q ↦ q.1 :: q.2) ++ before :: run))) from
      ⟨_, before, run, last, r, by simpa [Sections.tokens] using htokens.symm, hname, this.1, hd, hrun, by simpa using hd', hr, this.2⟩
    dsimp only at hs
    split at hs
    · rename_i has
      simp only [Bool.and_eq_true, decide_eq_true_eq] at has
      split at hs
      · cases hs
      · rename_i hne
        obtain ⟨rfl, rfl⟩ := Prod.mk.inj (Option.some.inj hs)
        refine ⟨rfl, .inl ⟨has.1, has.2, fun hi ↦ ?_, rfl⟩⟩
        obtain ⟨x, hx⟩ := List.exists_mem_of_ne_nil _ (mt List.reverse_eq_nil_iff.1 hne)
        have hink : x.1 ∈ inked (lead ++ earlier.reverse.flatMap fun q ↦ q.1 :: q.2) := by
          refine List.mem_filter.2 ⟨List.mem_append_right _ (List.mem_flatMap.2 ⟨x, hx, List.mem_cons_self⟩), ?_⟩
          have := heading_of_mem_parts (p := (!·.isBlank)) (d := 0) ts x
          rw [hq] at this
          exact this (by simp [hx])
        rw [hi] at hink
        cases hink
    · split at hs
      · rename_i hc
        obtain ⟨rfl, rfl⟩ := Prod.mk.inj (Option.some.inj hs)
        exact ⟨rfl, .inr ⟨hc, rfl⟩⟩
      · cases hs
  · cases hs

/-- The alias of an expression is a name, and what is before it is an expression. -/
theorem splitAlias_term {e k : Text} (h : IsTerm ts) (hs : splitAlias (textOf ts) = .ok (some (e, k))) :
    Term e ∧ ∃ t, IsAlias t ∧ t.text = k := by
  obtain ⟨head, before, run, last, r, rfl, hname, hk, hd, hrun, hd', hr, hcase⟩ := splitAlias_eq_some h.lexed hs
  have hflat : last.kind ≠ .opening ∧ last.kind ≠ .closing := by
    rcases kind_of_isName hname with hk | hk <;> simp [hk]
  -- nothing but white space could follow the alias, and that does not
  have hr : r = [] := by
    rw [after_of_kind hflat.1] at hr
    have hb := blanks_of_covered hr
    by_contra hne
    obtain ⟨t, ht, hn, -⟩ := h.last
    have hmem : t ∈ r := by
      have hlast := List.getLast?_eq_some_getLast hne
      have : (head ++ before :: (run ++ last :: r)).getLast? = some (r.getLast hne) := by
        have e : head ++ before :: (run ++ last :: r) = (head ++ before :: (run ++ [last])) ++ r := by simp
        rw [e, List.getLast?_append_of_ne_nil _ hne, hlast]
      obtain rfl := Option.some.inj (this.symm.trans ht)
      exact List.getLast_mem hne
    exact hn (by simpa [Token.isBlank] using hb t hmem)
  subst hr
  have halias : IsAlias last := by
    have e : head ++ before :: (run ++ [last]) = (head ++ before :: run) ++ [last] := by simp
    exact ⟨hname, Lexed.suffix (a := head ++ before :: run) (by simpa using h.lexed)⟩
  refine ⟨?_, last, halias, hk⟩
  have hbal := h.balanced
  rw [Balanced, depthRun_append] at hbal
  obtain ⟨n, hn, hbal⟩ := Option.bind_eq_some_iff.1 hbal
  rw [depthAfter_of_depthRun hn] at hd
  have hcode : ∀ t ∈ head ++ [before], t.kind ≠ .comment := fun t ht ↦ h.code (by
    rw [List.append_cons]
    exact List.mem_append_left _ ht)
  rcases hcase with ⟨hb, has, hi, rfl⟩ | ⟨hb, rfl⟩
  · rw [standing_of_kind (by simp [hb])] at hd
    subst hd
    have hword := h.lexed.suffix.readBefore
    have hw : leadingWords before.text = ["as".toList] := by
      have := leadingWords_append_of_name (isNameChar_of_lower has (by decide)) (Text.stops_nil _)
      rwa [List.append_nil, has] at this
    have hl : Lexed head := h.lexed.left_of_severs (hword.severs_of (by simp [Token.isBlank, hb]) fun _ ↦ by
      rw [hw]
      decide)
    exact ⟨_, (tokens?_eq_ok_iff.1 (tokens_trim hl fun t ht ↦ hcode t (List.mem_append_left _ ht))).1, h.core hl hn hi⟩
  · obtain ⟨hbk, -, hbb, -⟩ := isBlank_of_isCloseParen hb
    rw [List.append_cons] at h
    have hl : Lexed (head ++ [before]) := h.lexed.left_of_closeParen hb (opensComment_left _ _ h.opener)
    have hrun : ∀ t ∈ run, t.isBlank = true := by
      rw [after_of_kind (by simp [hbk])] at hrun
      exact blanks_of_covered hrun
    have hbal' : Balanced (head ++ [before]) := by
      rw [standing, if_pos hb] at hd
      have ho : before.isOpenParen = false := isOpenParen_of_isCloseParen hb
      rw [Balanced, depthRun_append, hn, Option.bind_some]
      cases n with
      | zero => simp [depthRun, ho, hb] at hbal
      | succ n =>
        obtain rfl : n = 0 := by omega
        simp [depthRun, ho, hb]
    have htext : Text.trim (textOf (head ++ before :: run)) = Text.trim (textOf (head ++ [before])) := by
      have hspace : ∀ c ∈ textOf run, Text.isSpace c = true :=
        h.lexed.isSpace_of_blanks fun t ht ↦ ⟨by simp [ht], hrun t ht⟩
      rw [List.append_cons, textOf_append, Text.trim, trimEnd_append_spaces hspace, Text.trim]
    rw [htext]
    exact ⟨_, (tokens?_eq_ok_iff.1 (tokens_trim hl hcode)).1, h.core hl hbal' (by simp [inked_append, inked_cons hbb])⟩

/-- So are those of an argument, which may be a bare name. -/
theorem aliased_term {p : Parts} {x e k : Text} (hx : Term x) (hs : p.aliased x = .ok (e, k)) :
    Term e ∧ ∃ t, IsAlias t ∧ t.text = k := by
  obtain ⟨ts, rfl, h⟩ := hx
  rw [Parts.aliased] at hs
  obtain ⟨o, ho, hs⟩ := ok_of_bind hs
  cases o with
  | some a =>
    obtain rfl := Except.ok.inj hs
    exact splitAlias_term h ho
  | none =>
    dsimp only at hs
    rw [h.lexed.tokenize, Except.bind] at hs
    split at hs
    · rename_i t ht
      split at hs
      · rename_i hk
        obtain ⟨rfl, rfl⟩ := Prod.mk.inj (Except.ok.inj hs)
        have hink : inked ts = [t.toToken] := by
          have := congrArg (List.map Located.toToken) ht
          rw [map_kept] at this
          simpa [inked] using this
        obtain ⟨u, us, rfl⟩ := List.exists_cons_of_ne_nil h.ne_nil
        rw [inked_cons (h.head u rfl)] at hink
        obtain ⟨rfl, hrest⟩ := List.cons.inj hink
        have hnil : us = [] := by
          by_contra hne
          obtain ⟨v, hv, hb, -⟩ := h.last
          rw [List.getLast?_cons_of_ne_nil hne] at hv
          have hmem : v ∈ inked us := List.mem_filter.2 ⟨List.mem_of_getLast? hv, by simpa [Token.isBlank] using hb⟩
          rw [hrest] at hmem
          cases hmem
        subst hnil
        have ha : IsAlias t.toToken := ⟨by simp [isName, hk], h.lexed⟩
        exact ⟨ha.text, _, ha, rfl⟩
      · cases hs
    · cases hs

end Aggregation
end QueryTemplate
