import QueryTemplate.Proofs.Query.Abreast
import QueryTemplate.Proofs.Query.Conditioned
import QueryTemplate.Proofs.Query.Passes
import Mathlib.Data.List.Forall2
namespace QueryTemplate

open Token Fragment

variable {rest : Text} {q : Query} {k e : Nat} {c : Clause} {t : Token} {w ts us : List Token}
  {d d' : Draft}

/-- No clause is open, and there are no joins. -/
structure Query.Unopened (q : Query) : Prop where
  has : ∀ c ∈ Clause.keywordClauses, q.has c = false
  joins : q.joins = []

theorem Query.unopened_of_isBareRoot (h : q.isBareRoot = true) : q.Unopened := by
  have e : q = { root := q.root } := by simpa [Query.isBareRoot] using h
  rw [e]
  refine ⟨fun c hc ↦ ?_, rfl⟩
  cases c with
  | root => exact absurd rfl (Clause.ne_of_keyword hc).1
  | source | unions => rfl
  | slot s => cases s <;> rfl
  | call n => exact absurd rfl ((Clause.ne_of_keyword hc).2.2 n)

namespace Draft

/-- What holds of a draft and is kept by each step holds of the draft that the query comes of. -/
theorem exists_of_parse {P : Draft → Prop}
    (step : ∀ {d t ts d' us}, d.step rest t ts = .ok (d', us) → P d → P d') (h : P d)
    (hq : parseTokens rest ts d = .ok q) : ∃ d', P d' ∧ q = d'.flush.query := by
  induction hn : ts.length using Nat.strongRecOn generalizing ts d with
  | ind n ih =>
    cases ts with
    | nil =>
      rw [parseTokens_nil] at hq
      exact ⟨d, h, (eq_of_atEnd hq).symm⟩
    | cons t ts =>
      rw [parseTokens_cons] at hq
      obtain ⟨⟨d', us⟩, hs, hq⟩ := ok_of_bind hq
      have hl : us.length ≤ ts.length := leaves_step _ hs
      rw [List.length_cons] at hn
      exact ih us.length (by omega) (step hs h) hq rfl

theorem flush_has (hc : c ∈ Clause.keywordClauses) (h : d.query.has c = true) :
    d.flush.query.has c = true := by
  refine flush_elim (P := fun q ↦ q.has c = true) h (fun g q hq ↦ ?_) fun xs ↦ ?_
  · rw [Query.has_modify? hq hc, h, Bool.or_true]
  · rw [Opened.has_root hc, h]

/-- A clause that is open stays open. -/
theorem step_has (hc : c ∈ Clause.keywordClauses) (hd : d.step rest t ts = .ok (d', us))
    (h : d.query.has c = true) : d'.query.has c = true := by
  have hf := flush_has hc h
  have hjoin : ∀ j, (d.flush.addJoin j).query.has c = true := by
    intro j
    rw [← hf]
    cases c <;> rfl
  cases stepped_of_step hd with
  | skip | token | comment | tableCall | member | memberToken => exact h
  | clause _ _ hw =>
    exact (Query.has_open (List.mem_of_find?_eq_some hw)).trans (by rw [hf, Bool.or_true])
  | comma =>
    rw [comma]
    split
    · refine push_elim (P := fun q ↦ q.has c = true) _ (fun g q hq ↦ ?_) fun xs ↦ ?_
      · rw [Query.has_modify? hq hc, hf, Bool.or_true]
      · rw [Opened.has_root hc, hf]
    · exact hf
  | conjunction =>
    rw [conjunction]
    split
    · exact hf
    · exact h
  | unions =>
    cases c with
    | unions => rfl
    | root | source | slot | call => exact hf
  | call =>
    refine (Query.has_open (by decide)).trans ?_
    rw [Query.has_setCall _ _ hc, hf, Bool.or_true]
  | subquery =>
    cases c with
    | source => rfl
    | root | unions | slot | call => exact h
  | arrays | table | joinQuery => exact hjoin _

theorem parse_has (hc : c ∈ Clause.keywordClauses) (hq : parseTokens rest ts d = .ok q)
    (h : d.query.has c = true) : q.has c = true := by
  obtain ⟨d', h', rfl⟩ :=
    exists_of_parse (P := fun d ↦ d.query.has c = true) (step_has hc) h hq
  exact flush_has hc h'

/-- A query without clauses and joins was read without any. -/
theorem unopened_of_parse (hq : parseTokens rest ts d = .ok q) (h : q.Unopened) :
    d.query.Unopened := by
  refine ⟨fun c hc ↦ Bool.eq_false_iff.2 fun hd ↦ ?_, ?_⟩
  · have := parse_has hc hq hd
    rw [h.has c hc] at this
    cases this
  · have := joins_parse hq
    rwa [h.joins, List.prefix_nil] at this

end Draft

theorem isComma_of_kind (h : t.kind ≠ .punctuation) : t.isComma = false :=
  Bool.eq_false_iff.2 fun hc ↦ h (kind_of_isComma hc)

theorem isComma_of_isBlank (h : t.isBlank = true) : t.isComma = false := by
  have hk : t.kind = .blank := by simpa [Token.isBlank] using h
  exact isComma_of_kind (by simp [hk])

theorem isComma_of_paren (h : t.isOpenParen = true ∨ t.isCloseParen = true) :
    t.isComma = false := by
  simp only [isOpenParen, isCloseParen, Bool.and_eq_true, decide_eq_true_eq] at h
  rcases h with h | h <;> exact isComma_of_kind (by simp [h.1])

/-- Tokens at a depth above the one that they need have no heading. -/
theorem covered_above {p : Token → Bool} (h : depthRun k ts = some e) : Covered p (k + 1) ts := by
  induction ts generalizing k with
  | nil => exact covered_nil
  | cons t ts ih =>
    have hrun := (depthRun_cons (f := {}) h).1
    have hpos : standing (k + 1) t ≠ 0 ∧
        after (standing (k + 1) t) t = after (standing k t) t + 1 := by
      have hoc : t.isOpenParen = true → t.isCloseParen = false := isCloseParen_of_isOpenParen
      simp only [depthRun] at h
      simp only [after, standing]
      cases ho : t.isOpenParen <;> cases hc : t.isCloseParen <;> cases k <;> simp_all
    refine covered_cons.2 ⟨fun h0 ↦ absurd h0 hpos.1, ?_⟩
    rw [hpos.2]
    exact ih hrun

/-- What parentheses enclose has no heading, nor have they. -/
theorem covered_enclosed {p : Token → Bool} {o z : Token} {b : List Token}
    (ho : o.isOpenParen = true) (hb : Balanced b) (hp : p o = false ∧ p z = false) :
    Covered p k (o :: (b ++ [z])) := by
  have hin := depthRun_add hb k
  rw [Nat.zero_add] at hin
  have hs : after (standing k o) o = k + 1 := by
    rw [after, if_pos ho, standing, if_neg (by simp [isCloseParen_of_isOpenParen ho])]
  rw [covered_cons, hs, covered_append]
  exact ⟨fun _ ↦ hp.1, covered_above hin, covered_cons.2 ⟨fun _ ↦ hp.2, covered_nil⟩⟩

/-- The tokens make the item `x`, if no `IN` is among them. -/
def Makes (ts : List Token) (x : Text) : Prop :=
  (∀ t ∈ ts, t.kind ≠ .membership) → x = (written ts).text

/-- Whether tokens are more than white space. -/
def isInked (ts : List Token) : Bool := inked ts ≠ []

namespace Draft

/-- Keywords, joins and macros leave a mark on the query, all other tokens of a list are put into an
item or end it. -/
theorem action_of_unopened (hr : d.clause = .root) (hs : d.step rest t ts = .ok (d', us))
    (hq : d'.query.Unopened) :
    d.action t = .skip ∨ d.action t = .pushToken ∨ d.action t = .pushComment ∨
      d.action t = .comma ∨ d.action t = .membership := by
  have hm := d.means_action t
  have had := d.admits_action t
  have opens : ∀ {c : Clause} {q : Query}, c ∈ Clause.keywordClauses → ¬(q.open c).Unopened := by
    intro c q hc hq
    have := hq.has c hc
    rw [Query.has_open hc] at this
    simp at this
  cases ha : d.action t with
  | skip | pushToken | pushComment | comma | membership => simp
  | openClause c =>
    rw [step, ha] at hs
    rw [ha] at had
    obtain ⟨rfl, rfl⟩ := Prod.mk.inj (Except.ok.inj hs)
    exact absurd hq (opens (List.mem_of_find?_eq_some had.1))
  | conjunction =>
    have hk : t.kind = .conjunction := by rwa [ha] at hm
    simp [action, hk, hr, Clause.isPredicate] at ha
  | readUnions =>
    rw [step, ha] at hs
    obtain ⟨-, -, hs⟩ := ok_of_bind hs
    obtain ⟨qs, -, hs⟩ := ok_of_map hs
    obtain ⟨rfl, -⟩ := Prod.mk.inj hs
    exact absurd (hq.has .unions (by decide)) (by simp [Query.has])
  | readCall =>
    rw [step, ha] at hs
    obtain ⟨p, -, hs⟩ := ok_of_bind hs
    obtain ⟨r, -, hs⟩ := ok_of_map hs
    obtain ⟨rfl, -⟩ := Prod.mk.inj hs
    exact absurd hq (opens (by decide))
  | sourceParen =>
    rw [ha] at had
    exact absurd (hr.symm.trans had) (by decide)
  | readJoin =>
    rw [ha] at hm
    obtain ⟨j, rfl⟩ := eq_of_step_join hm.1 hm.2 hs
    exact absurd hq.joins (by simp [addJoin])

/-- A draft of a list has read the tokens `w` since the last comma, and they leave `k` parentheses
open. -/
structure Gathers (w : List Token) (k : Nat) (d : Draft) : Prop where
  clause : d.clause = .root
  depth : d.fragment.depth = k
  trimmed : d.fragment.Trimmed
  ink : d.fragment.text = [] ↔ inked w = []
  written : (∀ t ∈ w, t.kind ≠ .membership) → d.fragment = written w

namespace Gathers

theorem nil (hc : d.clause = .root) (hf : d.fragment = {}) : d.Gathers [] 0 := by
  refine ⟨hc, by rw [hf]; rfl, hf ▸ trimmed_empty, by simp [hf], fun _ ↦ hf⟩

theorem isBalanced (h : d.Gathers w k) : d.fragment.isBalanced = true ↔ k = 0 :=
  isBalanced_iff h.depth

theorem blank (h : d.Gathers w k) (ht : t.isBlank = true) : d.Gathers (w ++ [t]) k := by
  refine ⟨h.clause, h.depth, h.trimmed, ?_, fun hm ↦ ?_⟩
  · rw [inked_append, inked_cons_blank ht, inked_nil, List.append_nil]
    exact h.ink
  · rw [written_blank ht, ← h.written fun u hu ↦ hm u (List.mem_append_left _ hu)]

theorem blanks {gs : List Token} (h : d.Gathers w k) (hg : ∀ g ∈ gs, g.isBlank = true) :
    d.Gathers (w ++ gs) k := by
  induction gs generalizing w with
  | nil => rwa [List.append_nil]
  | cons g gs ih =>
    obtain ⟨hg, hgs⟩ := List.forall_mem_cons.1 hg
    rw [List.append_cons]
    exact ih (h.blank hg) hgs

theorem pushToken (h : d.Gathers w k) (ht : Lexical t) (hb : t.kind ≠ .blank)
    (hc : t.kind ≠ .comment) (hd : depthRun k (t :: ts) = some e) :
    (d.pushToken t).Gathers (w ++ [t]) (after (standing k t) t) := by
  have hbt : t.isBlank = false := by simpa [Token.isBlank] using hb
  refine ⟨h.clause, (depthRun_cons hd).2 h.depth, h.trimmed.pushToken ht hb hc, ?_, fun hm ↦ ?_⟩
  · simp [Draft.pushToken, Fragment.pushToken, ht.text_ne_nil, inked_append, inked_cons hbt]
  · rw [written_push hbt, ← h.written fun u hu ↦ hm u (List.mem_append_left _ hu)]
    rfl

/-- After `IN` and what parentheses enclose the text is not the one of the tokens. -/
theorem pushText (h : d.Gathers w k) (hm : ∃ t ∈ w, t.kind = .membership) (hne : inked w ≠ [])
    (q : Query) (b : List Token) :
    (d.pushText (membershipText q)).Gathers (w ++ b) k := by
  have ht : d.fragment.text ≠ [] := fun e ↦ hne (h.ink.1 e)
  refine ⟨h.clause, h.depth, h.trimmed.pushMember ht q, ?_, fun hw ↦ ?_⟩
  · simp [Draft.pushText, Fragment.pushText, ht, hne]
  · obtain ⟨t, ht, hk⟩ := hm
    exact absurd hk (hw t (List.mem_append_left _ ht))

/-- What was read since the last comma becomes an item, unless it is white space. -/
theorem flush (h : d.Gathers w k) : d.flush.Gathers [] 0 ∧
    ∃ xs, d.flush.query.root = d.query.root ++ xs ∧
      List.Forall₂ Makes ([w].filter isInked) xs := by
  refine ⟨nil (by rw [flush_clause, h.clause]) (flush_fragment d), ?_⟩
  rw [flush_eq h.trimmed.toClean, h.trimmed.take?]
  by_cases hw : inked w = []
  · refine ⟨[], ?_, ?_⟩
    · rw [if_pos (h.ink.2 hw)]
      simp [addItems]
    · rw [List.filter_cons_of_neg (by simp [isInked, hw])]
      exact .nil
  · refine ⟨[d.fragment.text], ?_, ?_⟩
    · rw [if_neg fun e ↦ hw (h.ink.1 e)]
      simp [addItems, Draft.push, h.clause, Query.push?, Query.modify?]
    · rw [List.filter_cons_of_pos (by simp [isInked, hw])]
      exact .cons (fun hm ↦ by rw [h.written hm]) .nil

end Gathers

/-- The token `t` and perhaps some after it go on with what was read since the last comma. -/
def GoesOn (w : List Token) (k : Nat) (d : Draft) (t : Token) (ts : List Token) (d' : Draft)
    (us : List Token) : Prop :=
  ∃ x, ts = x ++ us ∧ Covered isComma k (t :: x) ∧ d'.query = d.query ∧
    d'.Gathers (w ++ t :: x) (depthAfter k (t :: x))

namespace Gathers

theorem goesOn_push (h : d.Gathers w k) (ht : Lexical t) (hb : t.kind ≠ .blank)
    (hc : t.kind ≠ .comment) (hd : depthRun k (t :: ts) = some e)
    (hcomma : standing k t = 0 → t.isComma = false) : GoesOn w k d t ts (d.pushToken t) ts :=
  ⟨[], rfl, covered_cons.2 ⟨hcomma, covered_nil⟩, rfl, h.pushToken ht hb hc hd⟩

/-- `IN` goes on with an item, and so does what parentheses after it enclose. -/
theorem goesOn_member (h : d.Gathers w k) (ht : Lexical t) (hk : t.kind = .membership)
    (hd : depthRun k (t :: ts) = some e) (hs : d.step rest t ts = .ok (d', us)) :
    GoesOn w k d t ts d' us := by
  have hafter : after (standing k t) t = k := by
    rw [standing_of_kind (by simp [hk]), after_of_kind (by simp [hk])]
  have hpush := h.pushToken ht (by simp [hk]) (by simp [hk]) hd
  rw [hafter] at hpush
  have hdepth : ∀ gs, (∀ g ∈ gs, g.isBlank = true) → depthAfter k (t :: gs) = k := fun gs hg ↦ by
    rw [depthAfter_cons, hafter, depthAfter_of_depthRun (depthRun_blanks hg)]
  have hcov : ∀ gs, (∀ g ∈ gs, g.isBlank = true) → Covered isComma k (t :: gs) := fun gs hg ↦
    covered_cons.2 ⟨fun _ ↦ isComma_of_kind (by simp [hk]),
      covered_of_forall fun g hm ↦ isComma_of_isBlank (hg g hm)⟩
  -- white space after `IN` is not read again
  have alone : ∀ gs vs, ts = gs ++ vs → (∀ g ∈ gs, g.isBlank = true) →
      GoesOn w k d t ts (d.pushToken t) vs := by
    intro gs vs hts hg
    refine ⟨gs, hts, hcov gs hg, rfl, ?_⟩
    rw [hdepth gs hg, List.append_cons]
    exact hpush.blanks hg
  cases stepped_of_step hs with
  | token => exact alone [] _ rfl nofun
  | memberToken =>
    exact alone _ _ List.takeWhile_append_dropWhile.symm fun g hg ↦ List.mem_takeWhile_imp hg
  | @member p q _ hp =>
    obtain ⟨gs, o, z, rfl, hg, ho, hz, hb⟩ := groupAhead_eq_some hp
    have hgroup : depthAfter k (o :: (p.1 ++ [z])) = k :=
      depthAfter_of_depthRun (depthRun_group ho hz hb [])
    refine ⟨gs ++ o :: (p.1 ++ [z]), by simp, ?_, rfl, ?_⟩
    · rw [← List.cons_append, covered_append, hdepth gs hg]
      exact ⟨hcov gs hg,
        covered_enclosed ho hb ⟨isComma_of_paren (.inl ho), isComma_of_paren (.inr hz)⟩⟩
    · have hne : inked (w ++ [t] ++ gs) ≠ [] := by
        simp [inked_append, inked_cons, Token.isBlank, hk]
      have hw : w ++ t :: (gs ++ o :: (p.1 ++ [z])) = w ++ [t] ++ gs ++ o :: (p.1 ++ [z]) := by simp
      have hk' : depthAfter k (t :: (gs ++ o :: (p.1 ++ [z]))) = k := by
        rw [← List.cons_append, depthAfter_append, hdepth gs hg, hgroup]
      rw [hw, hk']
      exact (hpush.blanks hg).pushText ⟨t, by simp, hk⟩ hne q _
  | skip hk' | comment hk' | clause hk' | conjunction hk' | call hk' | arrays hk' | table hk'
  | joinQuery hk' => rw [hk] at hk'; cases hk'
  | comma hk' => simp [isComma, hk] at hk'
  | unions hk' => simp [isUnionAll, isClause, hk] at hk'
  | tableCall hk' | subquery hk' => simp [isOpenParen, hk] at hk'

/-- A token of a list goes on with an item, or is the comma after it. -/
theorem step (h : d.Gathers w k) (ht : Lexical t) (hc : t.kind ≠ .comment)
    (hd : depthRun k (t :: ts) = some e) (hs : d.step rest t ts = .ok (d', us))
    (hq : d'.query.Unopened) :
    GoesOn w k d t ts d' us ∨ k = 0 ∧ t.isComma = true ∧ us = ts ∧ d' = d.flush := by
  have hm := d.means_action t
  rcases action_of_unopened h.clause hs hq with ha | ha | ha | ha | ha <;> rw [ha] at hm
  · have hm : t.kind = .blank := hm
    have hk : t.isBlank = true := by simpa [Token.isBlank] using hm
    rw [Draft.step, ha] at hs
    obtain ⟨rfl, rfl⟩ := Prod.mk.inj (Except.ok.inj hs)
    refine .inl ⟨[], rfl, covered_cons.2 ⟨fun _ ↦ isComma_of_isBlank hk, covered_nil⟩, rfl, ?_⟩
    have hafter : depthAfter k [t] = k :=
      depthAfter_of_depthRun (depthRun_blanks (by simpa using hk))
    rw [hafter]
    exact h.blank hk
  · rw [Draft.step, ha] at hs
    obtain ⟨rfl, rfl⟩ := Prod.mk.inj (Except.ok.inj hs)
    refine .inl (h.goesOn_push ht hm.1 hc hd fun h0 ↦ Bool.eq_false_iff.2 fun hcomma ↦ ?_)
    -- outside of parentheses a comma is not put into the item
    have hk := kind_of_isComma hcomma
    rw [standing_of_kind (by simp [hk])] at h0
    simp [action, hk, hcomma, h.isBalanced.2 h0] at ha
  · exact absurd hm hc
  · rw [Draft.step, ha] at hs
    obtain ⟨rfl, rfl⟩ := Prod.mk.inj (Except.ok.inj hs)
    exact .inr ⟨h.isBalanced.1 hm.2, hm.1, rfl, by simp [Draft.comma, h.clause]⟩
  · exact .inl (h.goesOn_member ht hm hd hs)

/-- The items of a list are made of the runs between its commas that are more than white space. -/
theorem parse (h : d.Gathers w k) (hl : ∀ t ∈ ts, Lexical t ∧ t.kind ≠ .comment)
    (hd : depthRun k ts = some 0) (hq : parseTokens rest ts d = .ok q) (hu : q.Unopened) :
    ∃ xs, q.root = d.query.root ++ xs ∧
      List.Forall₂ Makes
        (((sections isComma k ts).runs.modifyHead (w ++ ·)).filter isInked) xs := by
  -- a step may read a whole group after `IN`, so the induction is on the number of tokens
  induction hn : ts.length using Nat.strongRecOn generalizing ts d w k with
  | ind n ih =>
    cases ts with
    | nil =>
      rw [parseTokens_nil] at hq
      obtain rfl := eq_of_atEnd hq
      simpa [sections, Sections.runs] using h.flush.2
    | cons t ts =>
      rw [parseTokens_cons] at hq
      obtain ⟨⟨d', us⟩, hs, hp⟩ := ok_of_bind hq
      have hlen : us.length ≤ ts.length := leaves_step _ hs
      rw [List.length_cons] at hn
      obtain ⟨⟨ht, hc⟩, hts⟩ := List.forall_mem_cons.1 hl
      have hus : ∀ t ∈ us, Lexical t ∧ t.kind ≠ .comment :=
        fun u hu ↦ hts u ((suffix_of_step hs).mem hu)
      rcases h.step ht hc hd hs (unopened_of_parse hp hu) with
        ⟨x, rfl, hcov, hquery, hg⟩ | ⟨rfl, hcomma, rfl, rfl⟩
      · rw [← List.cons_append, depthRun_append] at hd
        obtain ⟨m, hm, hd'⟩ := Option.bind_eq_some_iff.1 hd
        obtain rfl := depthAfter_of_depthRun hm
        obtain ⟨xs, hroot, hxs⟩ := ih us.length (by omega) hg hus hd' hp rfl
        refine ⟨xs, by rw [hroot, hquery], ?_⟩
        rw [← List.cons_append, sections_append hcov]
        simpa [Sections.runs] using hxs
      · have hk := kind_of_isComma hcomma
        have hst : standing 0 t = 0 ∧ after 0 t = 0 :=
          ⟨standing_of_kind (by simp [hk]), after_of_kind (by simp [hk])⟩
        have hd' := (depthRun_cons (f := {}) hd).1
        rw [hst.1, hst.2] at hd'
        obtain ⟨hnil, ys, hys, hw⟩ := h.flush
        obtain ⟨xs, hroot, hxs⟩ := ih us.length (by omega) hnil hus hd' hp rfl
        refine ⟨ys ++ xs, by rw [hroot, hys, List.append_assoc], ?_⟩
        rw [sections_cons_heading hst.1 hcomma, hst.2]
        have := List.rel_append hw (by simpa [Sections.runs] using hxs)
        simpa [Sections.runs, ← List.filter_append] using this

end Gathers
end Draft

end QueryTemplate
