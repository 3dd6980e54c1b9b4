import QueryTemplate.Proofs.Query.Pieces
import QueryTemplate.Proofs.Query.Regular
namespace QueryTemplate

open Token

variable {rest : Text} {t : Token} {ts us : List Token} {d d' : Draft} {q : Query}

theorem ok_of_bind {α β : Type} {r : Except Error α} {g : α → Except Error β} {b : β}
    (h : r.bind g = .ok b) :
    ∃ a, r = .ok a ∧ g a = .ok b := by
  cases r with
  | error => cases h
  | ok a => exact ⟨a, rfl, h⟩

theorem ok_of_map {α β : Type} {r : Except Error α} {g : α → β} {b : β} (h : r.map g = .ok b) :
    ∃ a, r = .ok a ∧ g a = b := by
  cases r with
  | error => cases h
  | ok a => exact ⟨a, rfl, Except.ok.inj h⟩

theorem eq_of_atEnd {α : Type} {a a' : α} (h : atEnd rest a = .ok a') : a = a' := by
  rw [atEnd] at h
  split at h
  · exact Except.ok.inj h
  · cases h

theorem exists_membershipText (q : Query) : ∃ s : Text, membershipText q = ' ' :: s ++ ")" := by
  rw [membershipText]
  split
  · exact ⟨'(' :: Text.join ", " q.root, rfl⟩
  · exact ⟨"(\n" ++ q.printAt Query.tab ++ ['\n'], by simp⟩

theorem groupAhead_of_group {o : Token} {p : List Token × List Token}
    (hd : ts.dropWhile isBlank = o :: us) (ho : o.isOpenParen = true) (h : group rest us = .ok p) :
    groupAhead ts = some p := by
  rw [group] at h
  split at h
  · obtain rfl := Except.ok.inj h
    rw [groupAhead, hd]
    dsimp only
    rw [if_pos ho]
    assumption
  · cases h

namespace Draft

/-- What one step leads to: the draft, and the tokens that are left. -/
inductive Stepped (rest : Text) (d : Draft) (t : Token) (ts : List Token) :
    Draft → List Token → Prop
  | skip (hk : t.kind = .blank) : Stepped rest d t ts d ts
  | token (hb : t.kind ≠ .blank) (hc : t.kind ≠ .comment) : Stepped rest d t ts (d.pushToken t) ts
  | comment (hk : t.kind = .comment) : Stepped rest d t ts (d.pushComment t) ts
  | clause {c : Clause} (hk : t.kind = .clause) (hf : d.fragment.isBalanced = true)
    (hw : Clause.ofKeyword? t.keyword = some c) (hn : d.query.has c = false) :
    Stepped rest d t ts (d.openClause c) ts
  | comma (hk : t.isComma = true) (hf : d.fragment.isBalanced = true) :
    Stepped rest d t ts d.comma ts
  | conjunction (hk : t.kind = .conjunction) : Stepped rest d t ts (d.conjunction t) ts
  | unions {qs : List Query} (hk : isUnionAll t = true) (hf : d.fragment.isBalanced =
      true) (hn : d.query.unions = none)
    (hq : ((splitOutside isUnionAll ts).mapM fun b ↦ parseTokens [] b {}) = .ok qs) :
    Stepped rest d t ts { d.flush with query := { d.flush.query with unions := some qs } } []
  | call {p : List Token × List Token} {q : Query} (hk : t.kind = .aggregation)
    (hf : d.fragment.isBalanced = true)
    (hp : callGroup t.text rest ts = .ok p) (hq : parseTokens [] p.1 {} = .ok q) :
    Stepped rest d t ts (d.flush.addCall t.text (.ofQuery q)) p.2
  | tableCall {p : List Token × List Token} (hk : t.isOpenParen = true)
    (hp : group rest ts = .ok p) :
    Stepped rest d t ts (d.pushText ('(' :: textOf p.1 ++ ")")) p.2
  | subquery {p : List Token × List Token} {q : Query} (hk : t.isOpenParen = true)
    (hc : d.clause = .source)
    (hs : d.sourceIsEmpty = true) (hp : group rest ts = .ok p)
      (hq : parseTokens [] p.1 {} = .ok q) :
    Stepped rest d t ts (d.setSubquery q) p.2
  | member {p : List Token × List Token} {q : Query} (hk : t.kind = .membership)
    (hp : groupAhead ts = some p)
    (hq : parseTokens [] p.1 {} = .ok q) : Stepped rest d t ts
      ((d.pushToken t).pushText (membershipText q)) p.2
  | memberToken (hk : t.kind = .membership) : Stepped rest d t ts (d.pushToken t)
    (ts.dropWhile isBlank)
  | arrays {xs : List Text} {us : List Token} (hk : t.kind = .join)
    (hf : d.fragment.isBalanced = true)
    (hp : Join.readSource t rest ts = .ok (.arrays xs, us)) :
    Stepped rest d t ts (d.flush.addJoin { kind := t.keyword, source := .table xs }) us
  | table {x : Text} {us : List Token} {p : Join Query × List Token} (hk : t.kind = .join)
    (hf : d.fragment.isBalanced = true)
    (hp : Join.readSource t rest ts = .ok (.table x, us))
    (hr : Join.readTail { kind := t.keyword, source := .table [x] } rest us = .ok p) :
    Stepped rest d t ts (d.flush.addJoin p.1) p.2
  | joinQuery {b us : List Token} {q : Query} {p : Join Query × List Token} (hk : t.kind = .join)
    (hf : d.fragment.isBalanced = true) (hp : Join.readSource t rest ts = .ok (.subquery b, us))
    (hq : parseTokens [] b {} = .ok q)
      (hr : Join.readTail { kind := t.keyword, source := .subquery q } rest us = .ok p) :
    Stepped rest d t ts (d.flush.addJoin p.1) p.2

/-- What is known of a draft by what reading a token means. -/
def Admits (d : Draft) (t : Token) : Action → Prop
  | .openClause c => Clause.ofKeyword? t.keyword = some c ∧ d.query.has c = false
  | .readUnions => d.query.unions = none
  | .sourceParen => d.clause = .source
  | _ => True

theorem admits_action (d : Draft) (t : Token) : d.Admits t (d.action t) := by
  cases hk : t.kind with
  | clause =>
    simp only [action, hk]
    cases hc : Clause.ofKeyword? t.keyword with
    | none => trivial
    | some c =>
      simp only
      split
      · trivial
      · rename_i ho
        have hn := (Bool.or_eq_false_iff.1 (Bool.eq_false_iff.2 ho)).2
        split
        · subst_vars
          simpa [Admits, Query.has] using hn
        · exact ⟨hc, hn⟩
  | opening =>
    simp only [action, hk]
    split
    · rename_i hc
      simp only [Bool.and_eq_true, decide_eq_true_eq] at hc
      exact hc.2
    · trivial
  | join | aggregation | conjunction | punctuation =>
    simp only [action, hk]
    split <;> trivial
  | blank | comment | membership | identifier | string | number | operator | closing | placeholder
  | joinConstraint => simp [action, Admits, hk]

theorem stepped_of_step (h : d.step rest t ts = .ok (d', us)) : Stepped rest d t ts d' us := by
  have hm := d.means_action t
  have had := d.admits_action t
  rw [step] at h
  cases ha : d.action t with
  | skip =>
    rw [ha] at h hm
    obtain ⟨rfl, rfl⟩ := Prod.mk.inj (Except.ok.inj h)
    exact .skip hm
  | pushToken =>
    rw [ha] at h hm
    obtain ⟨rfl, rfl⟩ := Prod.mk.inj (Except.ok.inj h)
    exact .token hm.1 hm.2.1
  | pushComment =>
    rw [ha] at h hm
    obtain ⟨rfl, rfl⟩ := Prod.mk.inj (Except.ok.inj h)
    exact .comment hm
  | openClause c =>
    rw [ha] at h hm had
    obtain ⟨rfl, rfl⟩ := Prod.mk.inj (Except.ok.inj h)
    exact .clause hm.1 hm.2.1 had.1 had.2
  | comma =>
    rw [ha] at h hm
    obtain ⟨rfl, rfl⟩ := Prod.mk.inj (Except.ok.inj h)
    exact .comma hm.1 hm.2
  | conjunction =>
    rw [ha] at h hm
    obtain ⟨rfl, rfl⟩ := Prod.mk.inj (Except.ok.inj h)
    exact .conjunction hm
  | readUnions =>
    rw [ha] at h hm had
    obtain ⟨-, -, h⟩ := ok_of_bind h
    obtain ⟨qs, hq, e⟩ := ok_of_map h
    obtain ⟨rfl, rfl⟩ := Prod.mk.inj e
    exact .unions hm.1 hm.2 had hq
  | readCall =>
    rw [ha] at h hm
    obtain ⟨p, hp, h⟩ := ok_of_bind h
    obtain ⟨q, hq, e⟩ := ok_of_map h
    obtain ⟨rfl, rfl⟩ := Prod.mk.inj e
    exact .call hm.1 hm.2 hp hq
  | sourceParen =>
    rw [ha] at h hm had
    dsimp only at h
    split at h
    · obtain ⟨rfl, rfl⟩ := Prod.mk.inj (Except.ok.inj h)
      have ho := hm.1
      simp only [isOpenParen, Bool.and_eq_true, decide_eq_true_eq] at ho
      exact .token (by simp [ho.1]) (by simp [ho.1])
    · rename_i hn
      obtain ⟨p, hp, h⟩ := ok_of_bind h
      split at h
      · obtain ⟨rfl, rfl⟩ := Prod.mk.inj (Except.ok.inj h)
        exact .tableCall hm.1 hp
      · rename_i hl
        obtain ⟨q, hq, e⟩ := ok_of_map h
        obtain ⟨rfl, rfl⟩ := Prod.mk.inj e
        exact .subquery hm.1 had (by simpa [hl] using hn) hp hq
  | membership =>
    rw [ha] at h hm
    dsimp only at h
    have alone : Stepped rest d t ts (d.pushToken t) (ts.dropWhile isBlank) := .memberToken hm
    split at h
    · rename_i hd
      obtain ⟨rfl, rfl⟩ := Prod.mk.inj (Except.ok.inj h)
      rwa [hd] at alone
    · rename_i o vs hd
      split at h
      · obtain ⟨p, hp, h⟩ := ok_of_bind h
        obtain ⟨q, hq, e⟩ := ok_of_map h
        obtain ⟨rfl, rfl⟩ := Prod.mk.inj e
        exact .member hm (groupAhead_of_group hd ‹_› hp) hq
      · obtain ⟨rfl, rfl⟩ := Prod.mk.inj (Except.ok.inj h)
        rwa [hd] at alone
  | readJoin =>
    rw [ha] at h hm
    obtain ⟨⟨start, vs⟩, hp, h⟩ := ok_of_bind h
    cases start with
    | arrays xs =>
      obtain ⟨rfl, rfl⟩ := Prod.mk.inj (Except.ok.inj h)
      exact .arrays hm.1 hm.2 hp
    | table name =>
      obtain ⟨p, hr, e⟩ := ok_of_map h
      obtain ⟨rfl, rfl⟩ := Prod.mk.inj e
      exact .table hm.1 hm.2 hp hr
    | subquery b =>
      obtain ⟨q, hq, h⟩ := ok_of_bind h
      obtain ⟨p, hr, e⟩ := ok_of_map h
      obtain ⟨rfl, rfl⟩ := Prod.mk.inj e
      exact .joinQuery hm.1 hm.2 hp hq hr

/-- Joins are only added. -/
theorem joins_step (h : d.step rest t ts = .ok (d', us)) : d.query.joins <+: d'.query.joins := by
  have hf := d.flush_rest.1
  have kept : ∀ {js : List (Join Query)}, js = d.query.joins → d.query.joins <+: js := by
    rintro _ rfl
    exact List.prefix_rfl
  have added : ∀ j, d.query.joins <+: (d.flush.addJoin j).query.joins := by
    intro j
    rw [← hf]
    exact List.prefix_append _ _
  cases stepped_of_step h with
  | skip | token | comment | tableCall | subquery | member | memberToken => exact kept rfl
  | arrays | table | joinQuery => exact added _
  | @clause c => exact kept ((d.flush.query.open_joins c).trans hf)
  | comma =>
    apply kept
    rw [comma]
    split
    · exact (push_rest [','] d.flush).1.trans hf
    · exact hf
  | conjunction =>
    apply kept
    rw [conjunction]
    split
    · exact hf
    · rfl
  | unions => exact kept hf
  | @call p q => exact kept (((d.flush.query.setCall t.text (.ofQuery q)).open_joins
    (.slot .select)).trans hf)

theorem joins_parse (hq : parseTokens rest ts d = .ok q) : d.query.joins <+: q.joins := by
  induction hn : ts.length using Nat.strongRecOn generalizing ts d with
  | ind n ih =>
    cases ts with
    | nil =>
      rw [parseTokens_nil] at hq
      have hf : q.joins = d.query.joins :=
        (congrArg Query.joins (eq_of_atEnd hq)).symm.trans d.flush_rest.1
      exact hf ▸ List.prefix_rfl
    | cons t ts =>
      rw [parseTokens_cons] at hq
      obtain ⟨p, hs, hq⟩ := ok_of_bind hq
      have hl := leaves_step p hs
      rw [List.length_cons] at hn
      exact (joins_step hs).trans (ih _ (by omega) hq rfl)

end Draft
end QueryTemplate
