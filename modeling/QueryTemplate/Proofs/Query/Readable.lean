import QueryTemplate.Proofs.Query.Gathers
import QueryTemplate.Proofs.Query.Items
namespace QueryTemplate

open Token Fragment

variable {c : Clause} {n : Bool} {k : Nat} {d : Draft} {o e t : Token} {b gs ts us : List Token}
  {q : Query}

/-- A token with which no join, macro or further statement is read. -/
def Token.isSimple (t : Token) : Bool := t.kind ≠ .join && t.kind ≠ .aggregation && !isUnionAll t

theorem isSimple_of_isOrdinary (h : t.isOrdinary = true) : t.isSimple = true := by
  obtain ⟨-, hj, ha, -, hu⟩ := kind_of_isOrdinary h
  simp [isSimple, hj, ha, hu]

theorem inStatement_of_simple (hb : depthRun k ts = some 0) (hs : ∀ t ∈ ts, t.isSimple = true) : InStatement k ts := by
  simp only [isSimple, Bool.and_eq_true, decide_eq_true_eq, Bool.not_eq_true'] at hs
  exact ⟨hb, covered_of_forall fun t ht ↦ (hs t ht).2, covered_of_forall fun t ht ↦ by simpa using (hs t ht).1.1⟩

/-- Balanced tokens without joins, macros and `UNION ALL` are a query. -/
theorem Draft.Leaves.exists_query (h : d.Leaves k) (hb : depthRun k ts = some 0) (hs : ∀ t ∈ ts, t.isSimple = true) :
    ∃ q, parseTokens [] ts d = .ok q := by
  induction hn : ts.length using Nat.strongRecOn generalizing d k ts with
  | ind n ih =>
    cases ts with
    | nil => exact ⟨_, parseTokens_nil⟩
    | cons t ts =>
      subst hn
      obtain ⟨ht, hts⟩ := List.forall_mem_cons.1 hs
      simp only [isSimple, Bool.and_eq_true, decide_eq_true_eq, Bool.not_eq_true'] at ht
      have hi := inStatement_of_simple hb hs
      -- what parentheses enclose is shorter
      have hgroup : ∀ {m : Nat} {o : Token} {us : List Token}, o.isOpenParen = true → depthRun m (o :: us) = some 0 → us.Sublist ts →
          ∃ b vs r, group [] us = .ok (b, vs) ∧ parseTokens [] b {} = .ok r := by
        intro m o us ho hrun hsub
        obtain ⟨b, e, vs, hc, rfl, he, hbal, -⟩ := exists_group ho hrun
        have hlen := hsub.length_le
        rw [List.length_append, List.length_cons] at hlen
        obtain ⟨r, hr⟩ := ih b.length (by simp; omega) (d := {}) ⟨rfl, rfl⟩ hbal
          (fun u hu ↦ hts u (hsub.subset (List.mem_append_left _ hu))) rfl
        exact ⟨b, vs, r, by rw [group, hc], hr⟩
      have hstep : ∃ p, d.step [] t ts = .ok p := by
        have hm := d.means_action t
        rw [Draft.step]
        cases ha : d.action t with
        | skip | pushToken | pushComment | openClause c | comma | conjunction => exact ⟨_, rfl⟩
        | readUnions =>
          rw [ha] at hm
          exact absurd hm.1 (by simp [ht.2])
        | readCall =>
          rw [ha] at hm
          exact absurd hm.1 ht.1.2
        | readJoin =>
          rw [ha] at hm
          exact absurd hm.1 ht.1.1
        | sourceParen =>
          rw [ha] at hm
          obtain ⟨b, vs, r, hg, hr⟩ := hgroup hm.1 hb (List.Sublist.refl ts)
          simp only [hg, Except.bind, hr]
          split
          · exact ⟨_, rfl⟩
          · split <;> exact ⟨_, rfl⟩
        | membership =>
          rw [ha] at hm
          have hk : t.kind = .membership := hm
          have hd := (hi.tail_of_kind (by simp [hk]) (by simp [hk])).dropBlank
          dsimp only
          split
          · exact ⟨_, rfl⟩
          · rename_i o us e
            rw [e] at hd
            split
            · have hsub : (o :: us).Sublist ts := e ▸ List.dropWhile_sublist _
              obtain ⟨b, vs, r, hg, hr⟩ := hgroup ‹_› hd.balanced ((List.sublist_cons_self o us).trans hsub)
              simp only [hg, Except.bind, hr]
              exact ⟨_, rfl⟩
            · exact ⟨_, rfl⟩
      obtain ⟨p, hp⟩ := hstep
      obtain ⟨m, hm, hi'⟩ := (h.step hi fun _ _ ↦ opensNoGroup_nil).2 p hp
      have hsuf := Draft.suffix_of_step hp
      obtain ⟨q, hq⟩ := ih p.2.length (Nat.lt_succ_of_le hsuf.length_le) hm hi'.balanced (fun u hu ↦ hts u (hsuf.subset hu)) rfl
      exact ⟨q, by rw [parseTokens_step hp, hq]⟩

theorem exists_query (hb : Balanced ts) (hs : ∀ t ∈ ts, t.isSimple = true) : ∃ q, parseTokens [] ts {} = .ok q :=
  Draft.Leaves.exists_query (d := {}) ⟨rfl, rfl⟩ hb hs

/-- A token that ends a list of expressions where no parenthesis is open: a clause keyword, a join phrase or an aggregation
macro. -/
def Token.isReserved (t : Token) : Bool := t.kind = .clause || t.kind = .join || t.kind = .aggregation

namespace Draft

/-- A draft in front of the tokens that go on in its clause. The depth is `k`, and nothing but a table comes first after
`FROM`. -/
structure Faces (c : Clause) (n : Bool) (k : Nat) (ts : List Token) (d : Draft) : Prop where
  place : d.At c n
  trimmed : d.fragment.Trimmed
  depth : d.fragment.depth = k
  balanced : depthRun k ts = some 0
  covered : Covered isReserved k ts
  code : ∀ t ∈ ts, Lexical t ∧ t.kind ≠ .comment
  table : c = .source → n = false → d.fragment = {} →
    ∀ t ∈ (ts.dropWhile isBlank).head?, t.isOpenParen = false ∧ t.isComma = false

namespace Faces

theorem isBalanced (h : d.Faces c n k ts) : d.fragment.isBalanced = true ↔ k = 0 := isBalanced_iff h.depth

theorem blank (h : d.Faces c n k (t :: ts)) (hb : t.isBlank = true) : d.Faces c n k ts := by
  have hk : t.kind = .blank := by simpa [Token.isBlank] using hb
  have hs : after (standing k t) t = k := by rw [standing_of_kind (by simp [hk]), after_of_kind (by simp [hk])]
  refine ⟨h.place, h.trimmed, h.depth, ?_, ?_, (List.forall_mem_cons.1 h.code).2, fun hc hn hf ↦ ?_⟩
  · exact hs ▸ (depthRun_cons (f := {}) h.balanced).1
  · exact hs ▸ (covered_cons.1 h.covered).2
  · have := h.table hc hn hf
    rwa [List.dropWhile_cons_of_pos hb] at this

theorem push (h : d.Faces c n k (t :: ts)) (hb : t.isBlank = false) :
    (d.pushToken t).Faces c n (after (standing k t) t) ts := by
  obtain ⟨⟨hl, hc⟩, hcode⟩ := List.forall_mem_cons.1 h.code
  obtain ⟨hrun, hdepth⟩ := depthRun_cons (f := d.fragment) h.balanced
  refine ⟨h.place.hold _, h.trimmed.pushToken hl (by simpa [Token.isBlank] using hb) hc, hdepth h.depth, hrun,
    (covered_cons.1 h.covered).2, hcode, fun _ _ hf ↦ ?_⟩
  have hf : d.fragment.pushToken t = {} := hf
  exact absurd (congrArg Fragment.text hf) (by simp [Fragment.pushToken, hl.text_ne_nil])

/-- A comma ends an item. -/
theorem comma (h : d.Faces c n 0 (t :: ts)) (ht : t.isComma = true) :
    d.comma.Faces c (n || d.fragment.take?.isSome) 0 ts ∧ d.comma.fragment = {} := by
  have hk := kind_of_isComma ht
  have hb : t.isBlank = false := by simp [Token.isBlank, hk]
  have hs : after (standing 0 t) t = 0 := by rw [standing_of_kind (by simp [hk]), after_of_kind (by simp [hk])]
  have hplace := h.place.comma h.trimmed.toClean
  have hf : d.comma.fragment = {} := by rw [h.place.comma_eq h.trimmed.toClean]; rfl
  refine ⟨⟨hplace, hf ▸ trimmed_empty, by rw [hf]; rfl, ?_, ?_, (List.forall_mem_cons.1 h.code).2, fun hc hn _ ↦ ?_⟩, hf⟩
  · have := (depthRun_cons (f := {}) h.balanced).1
    rwa [hs] at this
  · exact hs ▸ (covered_cons.1 h.covered).2
  · -- nothing was there before the comma, so that it came first
    obtain ⟨rfl, hx⟩ := Bool.or_eq_false_iff.1 hn
    have hempty : d.fragment = {} := h.trimmed.empty (by
      by_contra hne
      rw [h.trimmed.take?, if_neg hne] at hx
      cases hx)
    have := (h.table hc rfl hempty t (by rw [List.dropWhile_cons_of_neg (by simp [hb])]; rfl)).2
    rw [ht] at this
    cases this

/-- A conjunction ends a predicate and starts the next. -/
theorem conjunction (h : d.Faces c n 0 (t :: ts)) (ht : t.kind = .conjunction) (hc : c.isPredicate = true) :
    (d.flush.pushToken t).Faces c n 0 ts := by
  have hs : after (standing 0 t) t = 0 := by rw [standing_of_kind (by simp [ht]), after_of_kind (by simp [ht])]
  have hf : d.flush.fragment = {} := d.flush_fragment
  have hflush : d.flush.Faces c n 0 (t :: ts) :=
    ⟨h.place.flush h.trimmed.toClean hc, hf ▸ trimmed_empty, by rw [hf]; rfl, h.balanced, h.covered, h.code, fun e ↦ by
      subst e
      cases hc⟩
  exact hs ▸ hflush.push (by simp [Token.isBlank, ht])

/-- What parentheses enclose is put behind an expression as one text. -/
theorem group (h : d.Faces c n k (gs ++ o :: (b ++ e :: ts))) (hg : ∀ g ∈ gs, g.isBlank = true) (ho : o.isOpenParen = true)
    (he : e.isCloseParen = true) (hb : Balanced b) {s : Text} (hf : (d.fragment.pushText s).Trimmed)
    (hs : s ≠ []) : (d.pushText s).Faces c n k ts := by
  have hrun := h.balanced
  have hcov := h.covered
  rw [depthRun_append, depthRun_blanks hg, Option.bind_some, depthRun_group ho he hb] at hrun
  rw [covered_append, depthAfter_of_depthRun (depthRun_blanks hg)] at hcov
  refine ⟨h.place.hold _, hf, h.depth, hrun, covered_group ho he hb hcov.2, fun t ht ↦ h.code t (by simp [ht]), fun _ _ hf ↦ ?_⟩
  have hf : d.fragment.pushText s = {} := hf
  exact absurd (congrArg Fragment.text hf) (by simp [Fragment.pushText, hs])

/-- The tokens that a query is read from complete items of the clause and start another one. -/
theorem exists_reads (h : d.Faces c n k ts) (hu : NoGroup us) (hq : parseTokens [] (ts ++ us) d = .ok q) :
    ∃ xs g, Reads c n d.fragment ts xs g := by
  induction hl : ts.length using Nat.strongRecOn generalizing d n k ts with
  | ind l ih =>
    cases ts with
    | nil => exact ⟨[], _, .nil⟩
    | cons t ts =>
      subst hl
      rw [List.cons_append] at hq
      cases hb : t.isBlank with
      | true =>
        rw [parse_blank hb] at hq
        obtain ⟨xs, g, hr⟩ := ih ts.length (by simp) (h.blank hb) hq rfl
        exact ⟨xs, g, .blank hb hr⟩
      | false =>
        have hpush := h.push hb
        obtain ⟨⟨hlex, hcode⟩, -⟩ := List.forall_mem_cons.1 h.code
        have htoken : Pushes c n d.fragment t → ∃ xs g, Reads c n d.fragment (t :: ts) xs g := by
          intro hp
          rw [parse_push hp h.place] at hq
          obtain ⟨xs, g, hr⟩ := ih ts.length (by simp) hpush hq rfl
          exact ⟨xs, g, .token hp hr⟩
        by_cases hm : t.kind = .membership
        · have hk : after (standing k t) t = k := by rw [standing_of_kind (by simp [hm]), after_of_kind (by simp [hm])]
          rw [hk] at hpush
          by_cases ho : ∃ o ∈ (ts.dropWhile isBlank).head?, o.isOpenParen = true
          · obtain ⟨o, ho, hopen⟩ := ho
            obtain ⟨vs, hvs⟩ := List.head?_eq_some_iff.1 ho
            have hts : ts = ts.takeWhile isBlank ++ o :: vs := by rw [← hvs, List.takeWhile_append_dropWhile]
            have hg : ∀ g ∈ ts.takeWhile isBlank, g.isBlank = true := fun g ↦ List.mem_takeWhile_imp
            generalize ts.takeWhile isBlank = gs at hts hg
            subst hts
            have hrun := hpush.balanced
            rw [depthRun_append, depthRun_blanks hg, Option.bind_some] at hrun
            obtain ⟨b, e, vs, -, rfl, he, hbal, -⟩ := exists_group hopen hrun
            rw [List.append_assoc, List.cons_append, List.append_assoc, List.cons_append, parseTokens_cons,
              Draft.step_member hm hg hopen he hbal] at hq
            obtain ⟨p, hp, hq⟩ := ok_of_bind hq
            obtain ⟨r, hr, rfl⟩ := ok_of_map hp
            have hne : (d.pushToken t).fragment.text ≠ [] := by simp [pushToken, Fragment.pushToken, hlex.text_ne_nil]
            have hmember := hpush.group hg hopen he hbal (hpush.trimmed.pushMember hne r) (by
              obtain ⟨s, hs⟩ := exists_membershipText r
              simp [hs])
            obtain ⟨xs, g, hreads⟩ := ih vs.length (by simp; omega) hmember hq rfl
            exact ⟨xs, g, .member hm hg hopen he hbal hr hreads⟩
          · have ho : ∀ o ∈ (ts.dropWhile isBlank).head?, o.isOpenParen = false := fun o ho' ↦
              Bool.eq_false_iff.2 fun e ↦ ho ⟨o, ho', e⟩
            rw [parse_alone hm (NoGroup.append (b := []) (by rwa [List.append_nil]) hu)] at hq
            obtain ⟨xs, g, hr⟩ := ih ts.length (by simp) hpush hq rfl
            exact ⟨xs, g, .alone hm ho hr⟩
        by_cases hcomma : t.isComma = true ∧ k = 0
        · obtain ⟨ht, rfl⟩ := hcomma
          have hf := h.isBalanced.2 rfl
          obtain ⟨hnext, hempty⟩ := h.comma ht
          rw [parse_comma ht hf] at hq
          obtain ⟨xs, g, hr⟩ := ih ts.length (by simp) hnext hq rfl
          exact ⟨_, g, .comma ht hf (hempty ▸ hr)⟩
        by_cases hconj : t.kind = .conjunction ∧ c.isPredicate = true ∧ k = 0
        · obtain ⟨ht, hc, rfl⟩ := hconj
          have hf := h.isBalanced.2 rfl
          have hfragment : (d.flush.pushToken t).fragment = Fragment.pushToken t {} := by
            rw [Draft.pushToken, d.flush_fragment]
          rw [parse_conjunction ht (h.place.clause ▸ hc) hf] at hq
          obtain ⟨xs, g, hr⟩ := ih ts.length (by simp) (h.conjunction ht hc) hq rfl
          exact ⟨_, g, .conjunction ht hc hf (hfragment ▸ hr)⟩
        by_cases hraw : t.isOpenParen = true ∧ c = .source ∧ k = 0 ∧ d.fragment.endsInTableFunction = true
        · obtain ⟨ho, rfl, rfl, hn⟩ := hraw
          have hf := h.isBalanced.2 rfl
          obtain ⟨b, e, vs, -, rfl, he, hbal, -⟩ := exists_group ho h.balanced
          rw [List.append_assoc, List.cons_append, parse_raw h.place hf hn ho he hbal] at hq
          have hfaces : d.Faces .source n 0 ([] ++ t :: (b ++ e :: vs)) := h
          have hnext := hfaces.group (List.forall_mem_nil _) ho he hbal (h.trimmed.pushText (textOf b)) (by simp)
          obtain ⟨xs, g, hr⟩ := ih vs.length (by simp; omega) hnext hq rfl
          exact ⟨xs, g, .raw rfl hf hn ho he hbal hr⟩
        refine htoken ⟨⟨by simpa [Token.isBlank] using hb, hcode, hm⟩, fun hk ↦ ?_, fun hk hc ↦ ?_, fun ho hc hf ↦ ?_⟩
        · refine Bool.eq_false_iff.2 fun hf ↦ ?_
          obtain rfl := h.isBalanced.1 hf
          have hcov := (covered_cons.1 h.covered).1 (by simp [standing])
          simp only [isReserved, Bool.or_eq_false_iff, decide_eq_false_iff_not] at hcov
          rcases hk with hk | hk | hk | hk
          exacts [hcov.1.1 hk, hcov.1.2 hk, hcov.2 hk, hcomma ⟨hk, rfl⟩]
        · exact Bool.eq_false_iff.2 fun hf ↦ hconj ⟨hk, hc, h.isBalanced.1 hf⟩
        · have hk := h.isBalanced.1 hf
          refine ⟨Bool.eq_false_iff.2 fun hn ↦ hraw ⟨ho, hc, hk, hn⟩, ?_⟩
          by_contra hne
          rw [not_or, Bool.not_eq_false, h.trimmed.isEmpty, Bool.not_eq_true] at hne
          have := (h.table hc hne.2 hne.1 t (by rw [List.dropWhile_cons_of_neg (by simp [hb])]; rfl)).1
          rw [ho] at this
          cases this

end Faces
end Draft
end QueryTemplate
