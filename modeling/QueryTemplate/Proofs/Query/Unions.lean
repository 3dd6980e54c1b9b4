import QueryTemplate.Proofs.Query.Reads
import QueryTemplate.Proofs.Token.Cut
namespace QueryTemplate

open Token

theorem Draft.action_of_isUnionAll {d : Draft} {t : Token} (ht : isUnionAll t = true)
    (hf : d.fragment.isBalanced = true) (hq : d.query.unions = none) : d.action t = .readUnions := by
  simp only [isUnionAll, isClause, Bool.and_eq_true, decide_eq_true_eq] at ht
  simp [action, ht.1, Clause.ofKeyword?_eq_unions.2 ht.2, hf, Query.has, hq]

/-- Tokens that close `k` parentheses more than they open and that stand in one statement, with no join
outside of parentheses. -/
structure InStatement (k : Nat) (ts : List Token) : Prop where
  balanced : depthRun k ts = some 0
  unions : Covered isUnionAll k ts
  joins : Covered (·.kind = .join) k ts

/-- A draft of the first statement whose expression leaves `k` parentheses open. -/
structure Draft.Leaves (d : Draft) (k : Nat) : Prop where
  depth : d.fragment.depth = k
  unions : d.query.unions = none

variable {k : Nat} {t : Token} {ts us : List Token} {d : Draft}

theorem after_standing (ho : t.kind ≠ .opening) (hc : t.kind ≠ .closing) : after (standing k t) t = k := by
  rw [after, standing, if_neg (by simp [isOpenParen, ho]), if_neg (by simp [isCloseParen, hc])]

namespace InStatement

theorem tail (h : InStatement k (t :: ts)) : InStatement (after (standing k t) t) ts :=
  ⟨(depthRun_cons (f := {}) h.balanced).1, (covered_cons.1 h.unions).2, (covered_cons.1 h.joins).2⟩

theorem tail_of_kind (h : InStatement k (t :: ts)) (ho : t.kind ≠ .opening) (hc : t.kind ≠ .closing) :
    InStatement k ts := by
  have := h.tail
  rwa [after_standing ho hc] at this

theorem dropBlank (h : InStatement k ts) : InStatement k (ts.dropWhile isBlank) := by
  induction ts with
  | nil => exact h
  | cons t ts ih =>
    cases hb : t.isBlank with
    | true =>
      have hk : t.kind = .blank := by simpa [Token.isBlank] using hb
      rw [List.dropWhile_cons_of_pos hb]
      exact ih (h.tail_of_kind (by simp [hk]) (by simp [hk]))
    | false => rwa [List.dropWhile_cons_of_neg (by simp [hb])]

/-- What a parenthesis encloses is the same whatever follows the statement. -/
theorem group {o : Token} (h : InStatement k (o :: ts)) (ho : o.isOpenParen = true) (us : List Token) :
    ∃ b vs, InStatement k vs ∧ QueryTemplate.group [] ts = .ok (b, vs) ∧
      QueryTemplate.group [] (ts ++ us) = .ok (b, vs ++ us) := by
  obtain ⟨b, e, vs, hc, rfl, he, hb, hd⟩ := exists_group ho h.balanced
  refine ⟨b, vs, ⟨hd, covered_group ho he hb h.unions, covered_group ho he hb h.joins⟩, ?_, ?_⟩
  · rw [QueryTemplate.group, hc]
  · rw [QueryTemplate.group, List.append_assoc, List.cons_append, closing?_append hb he]

end InStatement

theorem Query.modify?_unions {q q' : Query} {c : Clause} {f : List Text → List Text}
    (h : q.modify? c f = some q') : q'.unions = q.unions := by
  cases c with
  | root | slot => exact Option.some.inj h ▸ rfl
  | unions => cases h
  | source =>
    simp only [modify?] at h
    split at h <;> exact Option.some.inj h ▸ rfl
  | call n =>
    simp only [modify?] at h
    split at h
    · exact Option.some.inj h ▸ rfl
    · exact Option.some.inj h ▸ rfl
    · cases h

namespace Draft

theorem push_unions (x : Text) (d : Draft) : (d.push x).query.unions = d.query.unions := by
  rw [push]
  split
  · exact Query.modify?_unions ‹_›
  · rfl

theorem flush_unions (d : Draft) : d.flush.query.unions = d.query.unions := by
  rw [flush]
  split
  · rfl
  · rename_i x _
    split
    · exact push_unions _ _
    · cases h : pushToLast? x { d with fragment := {} } with
      | none => exact push_unions _ _
      | some e =>
        simp only [pushToLast?, Option.bind_eq_bind, Option.bind_eq_some_iff] at h
        obtain ⟨_, -, _, -, q, hq, he⟩ := h
        exact Option.some.inj he ▸ Query.modify?_unions hq

theorem open_unions {q : Query} {c : Clause} (hc : c ≠ .unions) : (q.open c).unions = q.unions := by
  rw [Query.open.eq_def]
  split
  · rfl
  · cases c with
    | unions => exact absurd rfl hc
    | _ => rfl

namespace Leaves

theorem flush (h : d.Leaves k) : d.flush.Leaves 0 := by
  refine ⟨by rw [flush_fragment]; rfl, ?_⟩
  rw [flush_unions, h.unions]

theorem push (h : d.Leaves k) (x : Text) (hf : (d.push x).fragment = d.fragment) : (d.push x).Leaves k :=
  ⟨by rw [hf, h.depth], by rw [push_unions, h.unions]⟩

theorem isBalanced (h : d.Leaves k) (hf : d.fragment.isBalanced = true) : k = 0 := by
  rw [Fragment.isBalanced, h.depth, decide_eq_true_eq] at hf
  omega

theorem pushToken (h : d.Leaves k) (hi : InStatement k (t :: ts)) :
    (d.pushToken t).Leaves (after (standing k t) t) :=
  ⟨(depthRun_cons hi.balanced).2 h.depth, h.unions⟩

theorem pushToken_of_kind (h : d.Leaves k) (ho : t.kind ≠ .opening) (hc : t.kind ≠ .closing) :
    (d.pushToken t).Leaves k := by
  refine ⟨?_, h.unions⟩
  simp [Draft.pushToken, Fragment.pushToken, isOpenParen, isCloseParen, ho, hc, h.depth]

theorem addCall (h : d.Leaves k) (n : Text) (a : CallArgs Query) : (d.addCall n a).Leaves k :=
  ⟨h.depth, (open_unions (q := d.query.setCall n a) (by simp)).trans h.unions⟩

theorem comma (h : d.Leaves k) : d.comma.Leaves 0 := by
  rw [Draft.comma]
  split
  · exact h.flush.push _ (push_fragment _ _)
  · exact h.flush

end Leaves
end Draft

/-- Tokens after which a membership keyword before them has no list. -/
def OpensNoGroup (us : List Token) : Prop := ∀ o ∈ us.head?, o.isBlank = false ∧ o.isOpenParen = false

theorem opensNoGroup_nil : OpensNoGroup [] := nofun

theorem dropWhile_blank_append (hu : ts.dropWhile isBlank = [] → OpensNoGroup us) :
    (ts ++ us).dropWhile isBlank = ts.dropWhile isBlank ++ us := by
  induction ts with
  | nil =>
    cases us with
    | nil => rfl
    | cons u us => exact List.dropWhile_cons_of_neg (by simp [(hu rfl u rfl).1])
  | cons t ts ih =>
    cases hb : t.isBlank with
    | true =>
      rw [List.dropWhile_cons_of_pos hb] at hu ⊢
      rw [List.cons_append, List.dropWhile_cons_of_pos hb, ih hu]
    | false =>
      rw [List.cons_append, List.dropWhile_cons_of_neg (by simp [hb]), List.dropWhile_cons_of_neg (by simp [hb])]
      rfl

/-- Whether a macro has its parenthesis does not depend on what follows the statement. -/
theorem InStatement.call (h : InStatement k ts) (hu : ts.dropWhile isBlank = [] → OpensNoGroup us) (name : Text) :
    (∃ b vs, InStatement k vs ∧ callGroup name [] ts = .ok (b, vs) ∧
      callGroup name [] (ts ++ us) = .ok (b, vs ++ us)) ∨
    ∃ e e', callGroup name [] ts = .error e ∧ callGroup name [] (ts ++ us) = .error e' := by
  have hd := h.dropBlank
  rw [callGroup, callGroup, expectToken, expectToken, dropWhile_blank_append hu]
  cases e : ts.dropWhile isBlank with
  | nil =>
    right
    cases us with
    | nil => exact ⟨_, _, rfl, rfl⟩
    | cons u us =>
      have ho := (hu e u rfl).2
      refine ⟨_, .unexpected ("( after " ++ name) u.text (textOf us ++ []), rfl, ?_⟩
      simp only [List.nil_append, Except.bind, ho]
      rfl
  | cons o ws =>
    rw [e] at hd
    simp only [List.cons_append, Except.bind]
    cases ho : o.isOpenParen with
    | true =>
      left
      obtain ⟨b, vs, hv, h₁, h₂⟩ := hd.group ho us
      exact ⟨b, vs, hv, h₁, h₂⟩
    | false => exact .inr ⟨_, _, rfl, rfl⟩

/-- Reading a token of a statement leaves the statement unread from there on, and what follows the
statement does not matter. -/
theorem Draft.Leaves.step (h : d.Leaves k) (hi : InStatement k (t :: ts))
    (hu : t.kind = .membership ∨ t.kind = .aggregation → ts.dropWhile isBlank = [] → OpensNoGroup us) :
    ((d.step [] t (ts ++ us)).toOption = (d.step [] t ts).toOption.map fun p ↦ (p.1, p.2 ++ us)) ∧
      ∀ p, d.step [] t ts = .ok p → ∃ n, p.1.Leaves n ∧ InStatement n p.2 := by
  have hm := d.means_action t
  rw [Draft.step, Draft.step]
  cases ha : d.action t with
  | skip =>
    rw [ha] at hm
    have hk : t.kind = .blank := hm
    exact ⟨rfl, fun p e ↦ Except.ok.inj e ▸ ⟨k, h, hi.tail_of_kind (by simp [hk]) (by simp [hk])⟩⟩
  | pushToken => exact ⟨rfl, fun p e ↦ Except.ok.inj e ▸ ⟨_, h.pushToken hi, hi.tail⟩⟩
  | pushComment =>
    rw [ha] at hm
    have hk : t.kind = .comment := hm
    exact ⟨rfl, fun p e ↦ Except.ok.inj e ▸ ⟨k, ⟨h.depth, h.unions⟩, hi.tail_of_kind (by simp [hk]) (by simp [hk])⟩⟩
  | openClause c =>
    rw [ha] at hm
    obtain ⟨hk, hf, hc⟩ := hm
    obtain rfl := h.isBalanced hf
    refine ⟨rfl, fun p e ↦ Except.ok.inj e ▸ ⟨0, ⟨h.flush.depth, ?_⟩, hi.tail_of_kind (by simp [hk]) (by simp [hk])⟩⟩
    exact (open_unions hc).trans h.flush.unions
  | comma =>
    rw [ha] at hm
    obtain ⟨hk, hf⟩ := hm
    obtain rfl := h.isBalanced hf
    simp only [isComma, Bool.and_eq_true, decide_eq_true_eq] at hk
    exact ⟨rfl, fun p e ↦ Except.ok.inj e ▸ ⟨0, h.comma, hi.tail_of_kind (by simp [hk]) (by simp [hk])⟩⟩
  | conjunction =>
    rw [ha] at hm
    have hk : t.kind = .conjunction := hm
    refine ⟨rfl, fun p e ↦ Except.ok.inj e ▸ ⟨k, ?_, hi.tail_of_kind (by simp [hk]) (by simp [hk])⟩⟩
    rw [Draft.conjunction]
    split
    · obtain rfl := h.isBalanced ‹_›
      exact h.flush.pushToken_of_kind (by simp [hk]) (by simp [hk])
    · exact h.pushToken_of_kind (by simp [hk]) (by simp [hk])
  | readUnions =>
    rw [ha] at hm
    obtain ⟨hk, hf⟩ := hm
    obtain rfl := h.isBalanced hf
    have := (covered_cons.1 hi.unions).1 (by simp [standing])
    rw [hk] at this
    cases this
  | readCall =>
    rw [ha] at hm
    obtain ⟨hk, hf⟩ := hm
    obtain rfl := h.isBalanced hf
    rcases (hi.tail_of_kind (by simp [hk]) (by simp [hk])).call (hu (.inr hk)) t.text with ⟨b, vs, hv, h₁, h₂⟩ | ⟨e, e', h₁, h₂⟩
    · simp only [h₁, h₂, Except.bind]
      cases parseTokens [] b {} with
      | error e => exact ⟨rfl, fun p e ↦ by cases e⟩
      | ok q => exact ⟨rfl, fun p e ↦ Except.ok.inj e ▸ ⟨0, h.flush.addCall _ _, hv⟩⟩
    · simp only [h₁, h₂, Except.bind]
      exact ⟨rfl, fun p e ↦ by cases e⟩
  | sourceParen =>
    rw [ha] at hm
    obtain ⟨ho, hf⟩ := hm
    obtain ⟨b, vs, hv, h₁, h₂⟩ := hi.group ho us
    simp only [h₁, h₂, Except.bind]
    split
    · exact ⟨rfl, fun p e ↦ Except.ok.inj e ▸ ⟨_, h.pushToken hi, hi.tail⟩⟩
    · split
      · exact ⟨rfl, fun p e ↦ Except.ok.inj e ▸ ⟨k, ⟨h.depth, h.unions⟩, hv⟩⟩
      · cases parseTokens [] b {} with
        | error e => exact ⟨rfl, fun p e ↦ by cases e⟩
        | ok q => exact ⟨rfl, fun p e ↦ Except.ok.inj e ▸ ⟨k, ⟨h.depth, h.unions⟩, hv⟩⟩
  | membership =>
    rw [ha] at hm
    have hk : t.kind = .membership := hm
    have hp := h.pushToken_of_kind (t := t) (by simp [hk]) (by simp [hk])
    have hd := (hi.tail_of_kind (by simp [hk]) (by simp [hk])).dropBlank
    have hu := hu (.inl hk)
    simp only [dropWhile_blank_append hu]
    cases e : ts.dropWhile isBlank with
    | nil =>
      rw [e] at hd
      have hs : ∀ p, Except.ok (d.pushToken t, []) = (.ok p : Except Error (Draft × List Token)) →
          ∃ n, p.1.Leaves n ∧ InStatement n p.2 := fun p e ↦ Except.ok.inj e ▸ ⟨k, hp, hd⟩
      cases us with
      | nil => exact ⟨rfl, hs⟩
      | cons u us =>
        simp only [List.nil_append, (hu e u rfl).2]
        exact ⟨rfl, hs⟩
    | cons o ws =>
      rw [e] at hd
      simp only [List.cons_append]
      cases ho : o.isOpenParen with
      | true =>
        obtain ⟨b, vs, hv, h₁, h₂⟩ := hd.group ho us
        simp only [if_true, h₁, h₂, Except.bind]
        cases parseTokens [] b {} with
        | error e => exact ⟨rfl, fun p e ↦ by cases e⟩
        | ok q => exact ⟨rfl, fun p e ↦ Except.ok.inj e ▸ ⟨k, ⟨hp.depth, hp.unions⟩, hv⟩⟩
      | false => exact ⟨rfl, fun p e ↦ Except.ok.inj e ▸ ⟨k, hp, hd⟩⟩
  | readJoin =>
    rw [ha] at hm
    obtain ⟨hk, hf⟩ := hm
    obtain rfl := h.isBalanced hf
    have := (covered_cons.1 hi.joins).1 (by simp [standing])
    simp [hk] at this

theorem toOption_bind {α β : Type} (r : Except Error α) (f : α → Except Error β) :
    (r.bind f).toOption = r.toOption.bind fun a ↦ (f a).toOption := by cases r <;> rfl

theorem toOption_eq_some {α : Type} {r : Except Error α} {a : α} : r.toOption = some a ↔ r = .ok a := by
  cases r <;> simp [Except.toOption]

theorem Query.with_unions {q : Query} {u : Option (List Query)} (h : q.unions = u) :
    { q with unions := u } = q := by
  cases q
  rw [← h]

theorem opensNoGroup_of_isUnionAll {u : Token} (hu : isUnionAll u = true) (b : List Token) :
    OpensNoGroup (u :: b) := by
  simp only [isUnionAll, isClause, Bool.and_eq_true, decide_eq_true_eq] at hu
  rintro o ⟨⟩
  simp [Token.isBlank, isOpenParen, hu.1]

/-- A statement before `UNION ALL` is read as it is by itself. -/
theorem Draft.Leaves.parse (h : d.Leaves k) (hi : InStatement k ts) :
    (∀ q, parseTokens [] ts d = .ok q → q.unions = none) ∧ ∀ u b, isUnionAll u = true →
      (parseTokens [] (ts ++ u :: b) d).toOption = (parseTokens [] ts d).toOption.bind fun q ↦
        ((splitOutside isUnionAll b).mapM fun r ↦ parseTokens [] r {}).toOption.map fun qs ↦
          { q with unions := some qs } := by
  induction hn : ts.length using Nat.strongRecOn generalizing d k ts with
  | ind n ih =>
    cases ts with
    | nil =>
      obtain rfl : k = 0 := Option.some.inj hi.balanced
      constructor
      · intro q hq
        rw [parseTokens_nil] at hq
        exact Except.ok.inj hq ▸ h.flush.unions
      · intro u b hu
        have hf : d.fragment.isBalanced = true := by
          rw [Fragment.isBalanced, h.depth]
          rfl
        have ha : d.action u = .readUnions := action_of_isUnionAll hu hf h.unions
        rw [List.nil_append, parseTokens_cons, Draft.step, ha, parseTokens_nil]
        simp only [Except.bind, Except.map, atEnd, if_true]
        cases (splitOutside isUnionAll b).mapM fun r ↦ parseTokens [] r {} with
        | error e => rfl
        | ok qs =>
          have he : ∀ q, Draft.flush { d.flush with query := q } = { d.flush with query := q } := fun q ↦
            Draft.flush_eq_self d.flush_fragment
          simp only [parseTokens_nil, he]
          rfl
    | cons t ts =>
      constructor
      · intro q hq
        obtain ⟨-, hs⟩ := h.step hi fun _ _ ↦ opensNoGroup_nil
        rw [parseTokens_cons] at hq
        cases hp : d.step [] t ts with
        | error e =>
          rw [hp] at hq
          cases hq
        | ok p =>
          rw [hp] at hq
          obtain ⟨m, h', hi'⟩ := hs p hp
          have hl := leaves_step p hp
          exact (ih p.2.length (by rw [← hn, List.length_cons]; omega) h' hi' rfl).1 q hq
      · intro u b hu
        obtain ⟨ha, hs⟩ := h.step hi fun _ _ ↦ opensNoGroup_of_isUnionAll hu b
        rw [List.cons_append, parseTokens_cons, parseTokens_cons, toOption_bind, toOption_bind, ha]
        cases hp : d.step [] t ts with
        | error e => rfl
        | ok p =>
          obtain ⟨m, h', hi'⟩ := hs p hp
          have hl := leaves_step p hp
          exact (ih p.2.length (by rw [← hn, List.length_cons]; omega) h' hi' rfl).2 u b hu

/-- A heading ends the first run. -/
theorem splitOutside_heading {p : Token → Bool} {a : List Token} (hp : ∀ t, p t = true → t.kind ≠ .opening ∧ t.kind ≠ .closing)
    (hc : Covered p 0 a) (ha : Balanced a) (ht : p t = true) (b : List Token) :
    splitOutside p (a ++ t :: b) = a :: splitOutside p b := by
  obtain ⟨ho, hcl⟩ := hp t ht
  rw [splitOutside_append hc (depthAfter_of_depthRun ha),
    splitOutside_cons_heading (by simp [standing, isCloseParen, hcl]) (by simp [after, isOpenParen, ho]) ht]
  simp

/-- Balanced tokens have no heading, or a balanced start without one, a heading and a balanced rest. -/
theorem splitOutside_cases {p : Token → Bool} (hp : ∀ t, p t = true → t.kind ≠ .opening ∧ t.kind ≠ .closing)
    (hb : Balanced ts) : Covered p 0 ts ∨ ∃ a t b, ts = a ++ t :: b ∧ p t = true ∧ Covered p 0 a ∧ Balanced a ∧
      Balanced b ∧ splitOutside p ts = a :: splitOutside p b := by
  have hafter : ∀ t, p t = true → after 0 t = 0 := fun t ht ↦ by simp [after, isOpenParen, (hp t ht).1]
  rcases splitOutside_eq_or hafter ts with hc | ⟨a, t, b, rfl, ht, hc, hd, hs⟩
  · exact .inl hc
  · obtain ⟨ho, hcl⟩ := hp t ht
    have hclose : t.isCloseParen = false := by simp [isCloseParen, hcl]
    have hopen : t.isOpenParen = false := by simp [isOpenParen, ho]
    rw [Balanced, depthRun_append] at hb
    obtain ⟨n, hn, hb⟩ := Option.bind_eq_some_iff.1 hb
    rw [standing, hclose, depthAfter_of_depthRun hn] at hd
    obtain rfl : n = 0 := hd
    simp only [depthRun, hopen, hclose] at hb
    exact .inr ⟨a, t, b, rfl, ht, hc, hn, hb, hs⟩

/-- The runs between headings are balanced if the tokens are. -/
theorem balanced_of_mem_splitOutside {p : Token → Bool} (hp : ∀ t, p t = true → t.kind ≠ .opening ∧ t.kind ≠ .closing)
    (hb : Balanced ts) : ∀ r ∈ splitOutside p ts, Balanced r ∧ Covered p 0 r := by
  induction hn : ts.length using Nat.strongRecOn generalizing ts with
  | ind n ih =>
    rcases splitOutside_cases hp hb with hc | ⟨a, t, b, rfl, -, hc, ha, hb', hs⟩
    · rw [splitOutside_of_covered hc]
      exact List.forall_mem_singleton.2 ⟨hb, hc⟩
    · rw [List.length_append, List.length_cons] at hn
      rw [hs]
      exact List.forall_mem_cons.2 ⟨⟨ha, hc⟩, ih b.length (by omega) hb' rfl⟩

theorem kind_of_isUnionAll (t : Token) (h : isUnionAll t = true) : t.kind ≠ .opening ∧ t.kind ≠ .closing := by
  simp only [isUnionAll, isClause, Bool.and_eq_true, decide_eq_true_eq] at h
  simp [h.1]

theorem inStatement_of_mem_splitOutside (hb : Balanced ts) (hj : ∀ t ∈ ts, t.kind ≠ .join) :
    ∀ r ∈ splitOutside isUnionAll ts, InStatement 0 r := by
  intro r hr
  obtain ⟨hbal, hcov⟩ := balanced_of_mem_splitOutside kind_of_isUnionAll hb r hr
  refine ⟨hbal, hcov, covered_of_forall fun t ht ↦ ?_⟩
  simpa using hj t ((sublist_of_mem_splitOutside hr).mem ht)

/-- The statements of a query are read alone as in the query, and each is one statement. -/
theorem statement_runs (h : Lexed ts) (hb : Balanced ts) (hj : Covered (·.kind = .join) 0 ts) :
    ∀ r ∈ splitOutside isUnionAll ts, Lexed r ∧ InStatement 0 r := by
  induction hn : ts.length using Nat.strongRecOn generalizing ts with
  | ind n ih =>
    rcases splitOutside_cases kind_of_isUnionAll hb with hc | ⟨a, t, b, rfl, ht, hc, ha, hb', hs⟩
    · rw [splitOutside_of_covered hc]
      intro r hr
      obtain rfl := List.mem_singleton.1 hr
      exact ⟨h, hb, hc, hj⟩
    · obtain ⟨hj₁, hj₂⟩ := covered_append.1 hj
      obtain ⟨ho, hcl⟩ := kind_of_isUnionAll t ht
      rw [depthAfter_of_depthRun ha, covered_cons, after_standing ho hcl] at hj₂
      rw [hs]
      intro r hr
      rcases List.mem_cons.1 hr with rfl | hr
      · exact ⟨h.left (.inr (.inr ht)), ha, hc, hj₁⟩
      · have hl : b.length < n := by
          rw [← hn, List.length_append, List.length_cons]
          omega
        exact ih b.length hl h.suffix.tail hb' hj₂.2 rfl r hr

theorem mapM_eq_ok_iff {α β : Type} {f : α → Except Error β} {xs : List α} {ys : List β} :
    xs.mapM f = .ok ys ↔ xs.map f = ys.map .ok := by
  induction xs generalizing ys with
  | nil => cases ys <;> simp [pure, Except.pure]
  | cons x xs ih =>
    rw [List.mapM_cons, List.map_cons]
    cases hx : f x with
    | error e => cases ys <;> simp [bind, Except.bind]
    | ok y =>
      cases hm : xs.mapM f with
      | error e =>
        cases ys with
        | nil => simp [bind, Except.bind]
        | cons z ys => simp [bind, Except.bind, ← ih, hm]
      | ok zs =>
        cases ys with
        | nil => simp [bind, Except.bind, pure, Except.pure]
        | cons z ys => simp [bind, Except.bind, pure, Except.pure, ← ih, hm]

theorem map_eq_ok_iff {α β : Type} {f : α → Except Error β} {xs : List α} :
    (∀ x ∈ xs, ∃ y, f x = .ok y) ↔ ∃ ys : List β, xs.map f = ys.map .ok := by
  induction xs with
  | nil => exact ⟨fun _ ↦ ⟨[], rfl⟩, fun _ ↦ nofun⟩
  | cons x xs ih =>
    rw [List.forall_mem_cons, ih]
    constructor
    · rintro ⟨⟨y, hy⟩, ys, hys⟩
      exact ⟨y :: ys, by rw [List.map_cons, List.map_cons, hy, hys]⟩
    · rintro ⟨ys, hys⟩
      cases ys with
      | nil => cases hys
      | cons y ys =>
        obtain ⟨hy, hys⟩ := List.cons.inj hys
        exact ⟨⟨y, hy⟩, ys, hys⟩

/-- A query of balanced tokens without joins outside of parentheses is read statement by statement. -/
theorem parseTokens_statements (hb : Balanced ts) (hr : ∀ r ∈ splitOutside isUnionAll ts, InStatement 0 r) (q : Query) :
    parseTokens [] ts {} = .ok q ↔ ∃ q₀ qs,
      (splitOutside isUnionAll ts).map (fun r ↦ parseTokens [] r {}) = (q₀ :: qs).map .ok ∧
        q = { q₀ with unions := if qs = [] then none else some qs } := by
  have hempty : Draft.Leaves {} 0 := ⟨rfl, rfl⟩
  have hnone : ∀ r ∈ splitOutside isUnionAll ts, ∀ q, parseTokens [] r {} = .ok q → q.unions = none := fun r h ↦
    (hempty.parse (hr r h)).1
  rcases splitOutside_cases kind_of_isUnionAll hb with hc | ⟨a, t, b, rfl, ht, -, -, -, hs⟩
  · rw [splitOutside_of_covered hc] at hnone ⊢
    have hq := hnone ts (List.mem_singleton_self ts)
    constructor
    · intro h
      exact ⟨q, [], by rw [List.map_singleton, h]; rfl, (Query.with_unions (hq q h)).symm⟩
    · rintro ⟨q₀, qs, h, rfl⟩
      obtain ⟨h₀, hqs⟩ := List.cons.inj h
      obtain rfl := List.map_eq_nil_iff.1 hqs.symm
      rwa [if_pos rfl, Query.with_unions (hq q₀ h₀)]
  · have h := (hempty.parse (hr a (hs ▸ List.mem_cons_self))).2 t b ht
    have hne := splitOutside_ne_nil isUnionAll b
    rw [hs, List.map_cons]
    have hqs : ∀ {qs}, (splitOutside isUnionAll b).map (fun r ↦ parseTokens [] r {}) = qs.map .ok → qs ≠ [] := by
      rintro qs hm rfl
      exact hne (by simpa using hm)
    rw [← toOption_eq_some, h, Option.bind_eq_some_iff]
    simp only [Option.map_eq_some_iff, toOption_eq_some, mapM_eq_ok_iff]
    constructor
    · rintro ⟨q₀, h₀, qs, hm, rfl⟩
      exact ⟨q₀, qs, by rw [h₀, hm]; rfl, by rw [if_neg (hqs hm)]⟩
    · rintro ⟨q₀, qs, hq, rfl⟩
      obtain ⟨h₀, hm⟩ := List.cons.inj hq
      exact ⟨q₀, h₀, qs, hm, by rw [if_neg (hqs hm)]⟩

/-- A query is read statement by statement: the first one carries the others, and none of them carries
any by itself. -/
theorem parse_splitUnionAll {s : Text} {ps : List Text} (hs : tokens? s = .ok ts) (hb : Balanced ts)
    (hj : Covered (·.kind = .join) 0 ts) (hp : splitUnionAll s = .ok ps) :
    ((∃ q, parse s = .ok q) ↔ ∀ p ∈ ps, ∃ q, parse p = .ok q) ∧
      (∀ q, parse s = .ok q → ∃ q₀ qs, ps.map parse = (q₀ :: qs).map .ok ∧
        q = { q₀ with unions := if qs = [] then none else some qs }) ∧
      ∀ p ∈ ps, ∀ q, parse p = .ok q → q.unions = none := by
  obtain ⟨rfl, hl⟩ := tokens?_eq_ok_iff.1 hs
  rw [splitUnionAll, splitText, hs] at hp
  obtain rfl := Except.ok.inj hp
  have hr := statement_runs hl hb hj
  have hmap : ((splitOutside isUnionAll ts).map textOf).map parse =
      (splitOutside isUnionAll ts).map fun r ↦ parseTokens [] r {} := by
    rw [List.map_map]
    exact List.map_congr_left fun r h ↦ parse_textOf (hr r h).1
  have hparse := fun q ↦ parseTokens_statements hb (fun r h ↦ (hr r h).2) q
  rw [← parse_textOf hl, ← hmap] at hparse
  refine ⟨?_, fun q hq ↦ (hparse q).1 hq, fun p hp q hq ↦ ?_⟩
  · rw [map_eq_ok_iff]
    constructor
    · rintro ⟨q, hq⟩
      obtain ⟨q₀, qs, h, -⟩ := (hparse q).1 hq
      exact ⟨_, h⟩
    · rintro ⟨qs, h⟩
      cases qs with
      | nil => exact absurd (by simpa using h) (splitOutside_ne_nil isUnionAll ts)
      | cons q₀ qs => exact ⟨_, (hparse _).2 ⟨q₀, qs, h, rfl⟩⟩
  · obtain ⟨r, h, rfl⟩ := List.mem_map.1 hp
    rw [parse_textOf (hr r h).1] at hq
    exact (Draft.Leaves.parse ⟨rfl, rfl⟩ (hr r h).2).1 q hq

theorem parse_splitUnionAll_branches :
    splitUnionAll "SELECT a -- x\nUNION ALL SELECT (b)" = .ok ["SELECT a -- x\n", " SELECT (b)"] ∧
    ((∃ q, parse "SELECT a -- x\nUNION ALL SELECT (b)" = .ok q) ↔
      ∀ p ∈ [("SELECT a -- x\n" : Text), " SELECT (b)"], ∃ q, parse p = .ok q) ∧
    (∀ q, parse "SELECT a -- x\nUNION ALL SELECT (b)" = .ok q → ∃ q₀ qs,
      [("SELECT a -- x\n" : Text), " SELECT (b)"].map parse = (q₀ :: qs).map .ok ∧
        q = { q₀ with unions := if qs = [] then none else some qs }) ∧
    ∀ p ∈ [("SELECT a -- x\n" : Text), " SELECT (b)"], ∀ q, parse p = .ok q → q.unions = none := by
  have hs : tokens? "SELECT a -- x\nUNION ALL SELECT (b)" = .ok [⟨.clause, "SELECT"⟩, ⟨.blank, " "⟩,
      ⟨.identifier, "a"⟩, ⟨.blank, " "⟩, ⟨.comment, "-- x"⟩, ⟨.blank, "\n"⟩, ⟨.clause, "UNION ALL"⟩, ⟨.blank, " "⟩,
      ⟨.clause, "SELECT"⟩, ⟨.blank, " "⟩, ⟨.opening, "("⟩, ⟨.identifier, "b"⟩, ⟨.closing, ")"⟩] :=
    tokens?_eq_ok_iff.2 ⟨by decide, by decide +kernel⟩
  have hp : splitUnionAll "SELECT a -- x\nUNION ALL SELECT (b)" = .ok ["SELECT a -- x\n", " SELECT (b)"] := by
    rw [splitUnionAll, splitText, hs]
    rfl
  exact ⟨hp, parse_splitUnionAll hs (by decide) (by decide) hp⟩

end QueryTemplate
