import Mathlib.Data.List.TakeWhile
import QueryTemplate.Proofs.Query.Chapters
import QueryTemplate.Proofs.Query.Unions
import QueryTemplate.Proofs.Query.Unread
namespace QueryTemplate

open Token

variable {q q' : Query} {c : Clause} {s : Slot} {x : Option (List Text)} {d d' : Draft} {k : Nat}
    {t : Token} {ts us gs : List Token}

namespace Slots

theorem set_comm (x : Slots) (xs ys : List Text) {r s : Slot} (h : r ≠ s) :
    (x.set xs r).set ys s = (x.set ys s).set xs r := by
  cases r <;> cases s <;> first | rfl | exact absurd rfl h

end Slots

namespace Query

/-- What is put into one clause leaves the others alone. -/
theorem modify?_get {f : List Text → List Text} (h : q.modify? c f = some q') (hc : c ≠ .slot s)
    (hs : s ≠ .aliases) : q'.slots.get s = q.slots.get s := by
  cases c with
  | root => exact Option.some.inj h ▸ rfl
  | unions => cases h
  | slot r =>
    obtain rfl := Option.some.inj h
    exact Slots.get_set_of_ne _ _ fun e ↦ hc (by rw [e])
  | source =>
    simp only [modify?] at h
    split at h
    · exact Option.some.inj h ▸ rfl
    · exact Option.some.inj h ▸ rfl
    · obtain rfl := Option.some.inj h
      exact Slots.get_set_of_ne _ _ hs
  | call n =>
    simp only [modify?] at h
    split at h
    · exact Option.some.inj h ▸ rfl
    · exact Option.some.inj h ▸ rfl
    · cases h

theorem open_get (hc : c ≠ .slot s) : (q.open c).slots.get s = q.slots.get s := by
  rw [Query.open.eq_def]
  split
  · rfl
  · cases c with
    | slot r => exact Slots.get_set_of_ne _ _ fun e ↦ hc (by rw [e])
    | root | source | unions | call => rfl

end Query

namespace Draft

theorem push_get (x : Text) (hc : d.clause ≠ .slot s) (hs : s ≠ .aliases) :
    (d.push x).query.slots.get s = d.query.slots.get s := by
  rw [push]
  split
  · exact Query.modify?_get ‹_› hc hs
  · rfl

theorem flush_clause (d : Draft) : d.flush.clause = d.clause := by
  rw [flush]
  split
  · rfl
  · rename_i x _
    split
    · exact push_clause _ _
    · cases h : pushToLast? x { d with fragment := {} } with
      | none => exact push_clause _ _
      | some e =>
        simp only [pushToLast?, Option.bind_eq_bind, Option.bind_eq_some_iff] at h
        obtain ⟨_, -, _, -, q, -, he⟩ := h
        exact Option.some.inj he ▸ rfl

theorem flush_get (hc : d.clause ≠ .slot s) (hs : s ≠ .aliases) :
    d.flush.query.slots.get s = d.query.slots.get s := by
  rw [flush]
  split
  · rfl
  · rename_i x _
    split
    · exact push_get (d := { d with fragment := {} }) x hc hs
    · cases h : pushToLast? x { d with fragment := {} } with
      | none => exact push_get (d := { d with fragment := {} }) x hc hs
      | some e =>
        simp only [pushToLast?, Option.bind_eq_bind, Option.bind_eq_some_iff] at h
        obtain ⟨_, -, _, -, q, hq, he⟩ := h
        exact Option.some.inj he ▸ Query.modify?_get hq hc hs

/-- A draft that is read outside of the clause of a slot, in which `x` is. -/
structure Past (d : Draft) (s : Slot) (x : Option (List Text)) : Prop where
  slot : d.query.slots.get s = x
  clause : d.clause ≠ .slot s

namespace Past

theorem flush (h : d.Past s x) (hs : s ≠ .aliases) : d.flush.Past s x :=
  ⟨(flush_get h.clause hs).trans h.slot, by rw [flush_clause]; exact h.clause⟩

theorem push (h : d.Past s x) (hs : s ≠ .aliases) (y : Text) : (d.push y).Past s x :=
  ⟨(push_get y h.clause hs).trans h.slot, by rw [push_clause]; exact h.clause⟩

theorem hold (h : d.Past s x) (f : Fragment) : (d.hold f).Past s x := ⟨h.slot, h.clause⟩

theorem openClause (h : d.Past s x) (hs : s ≠ .aliases) (hc : c ≠ .slot s) :
    (d.openClause c).Past s x :=
  ⟨(Query.open_get hc).trans (h.flush hs).slot, hc⟩

theorem addJoin (h : d.Past s x) (j : Join Query) : (d.addJoin j).Past s x := ⟨h.slot, h.clause⟩

/-- Only its keyword changes what is in a clause. -/
theorem step (h : d.Past s x) (hs : s ≠ .aliases) (hk : t.kind ≠ .aggregation)
    (ht : x = none → t.clause? = some (.slot s) → d.fragment.isBalanced = false)
    (hd : d.step [] t ts = .ok (d', us)) :
    d'.Past s x := by
  cases stepped_of_step hd with
  | skip => exact h
  | token | comment | tableCall | member | memberToken => exact h.hold _
  | @clause c hkind hf hw hn =>
    refine h.openClause hs ?_
    rintro rfl
    have hx : x = none := by
      rw [Query.has, h.slot] at hn
      simpa using hn
    rw [ht hx (by rw [clause?, if_pos hkind, hw])] at hf
    cases hf
  | comma =>
    rw [comma]
    split
    · exact (h.flush hs).push hs _
    · exact h.flush hs
  | conjunction =>
    rw [conjunction]
    split
    · exact (h.flush hs).hold _
    · exact h.hold _
  | unions => exact ⟨(h.flush hs).slot, (h.flush hs).clause⟩
  | call hkind => exact absurd hkind hk
  | subquery => exact ⟨h.slot, fun e ↦ hs (Clause.slot.inj e).symm⟩
  | arrays | table | joinQuery => exact (h.flush hs).addJoin _

end Past
end Draft

theorem eq_of_depthRun {m n : Nat} (hm : depthRun m ts = some 0) (hn : depthRun n ts = some 0) :
    m = n := by
  have key : ∀ {a b : Nat}, depthRun a ts = some 0 → depthRun b ts = some 0 → a ≤ b := by
    intro a b ha hb
    refine Nat.le_of_not_lt fun h ↦ ?_
    have := depthRun_add hb (a - b)
    rw [Nat.add_sub_cancel' (by omega), ha] at this
    have := Option.some.inj this
    omega
  exact Nat.le_antisymm (key hm hn) (key hn hm)

/-- Where the rest of a statement is read is how deep the tokens before it lead. -/
theorem depthAfter_of_suffix {n : Nat} {vs : List Token} (h : depthRun k (vs ++ us) = some 0)
    (hu : depthRun n us = some 0) : depthAfter k vs = n := by
  rw [depthRun_append] at h
  obtain ⟨m, hv, hm⟩ := Option.bind_eq_some_iff.1 h
  rw [depthAfter_of_depthRun hv]
  exact eq_of_depthRun hm hu

/-- The end of a statement has the headings of the statement. -/
theorem covered_suffix {p : Token → Bool} {n : Nat} (h : depthRun k ts = some 0)
    (hu : depthRun n us = some 0) (hs : us <:+ ts) (hp : Covered p k ts) : Covered p n us := by
  obtain ⟨a, rfl⟩ := hs
  have := (covered_append.1 hp).2
  rwa [depthAfter_of_suffix h hu] at this

theorem dropWhile_blanks (hg : ∀ g ∈ gs, g.isBlank = true) (hu : OpensNoGroup us) :
    (gs ++ us).dropWhile isBlank = us := by
  have hd : gs.dropWhile isBlank = [] := List.dropWhile_eq_nil_iff.2 hg
  rw [dropWhile_blank_append fun _ ↦ hu, hd, List.nil_append]

/-- A keyword that is no heading stands in parentheses. -/
theorem Draft.Leaves.inside (h : d.Leaves k) (hc : Covered (·.clause? = some c) k (t :: ts))
    (ht : t.clause? = some c) :
    d.fragment.isBalanced = false := by
  refine Bool.eq_false_iff.2 fun hf ↦ ?_
  obtain rfl := h.isBalanced hf
  have := (covered_cons.1 hc).1 (by simp [standing])
  simp [ht] at this

/-- A statement is read to its end, whatever follows. -/
theorem Draft.Leaves.exists_end (h : d.Leaves k) (hi : InStatement k ts)
    (hk : ∀ t ∈ ts, t.kind ≠ .join ∧ t.kind ≠ .aggregation) :
    ∃ r : Option Draft,
      (∀ e ∈ r, e.Leaves 0 ∧
        ∀ s x, s ≠ .aliases → d.Past s x → (x = none → Covered (·.clause? = some (.slot s)) k ts) →
            e.Past s x) ∧
      ∀ gs us, (∀ g ∈ gs, g.isBlank = true) → OpensNoGroup us →
        (parseTokens [] (ts ++ (gs ++ us)) d).toOption =
            r.bind fun e ↦ (parseTokens [] us e).toOption := by
  induction hn : ts.length using Nat.strongRecOn generalizing d k ts with
  | ind n ih =>
    cases ts with
    | nil =>
      obtain rfl : k = 0 := Option.some.inj hi.balanced
      refine ⟨some d, ?_, fun gs us hg hu ↦ ?_⟩
      · rintro e ⟨⟩
        exact ⟨h, fun _ _ _ hs _ ↦ hs⟩
      · rw [List.nil_append, ← parse_dropWhile, dropWhile_blanks hg hu]
        rfl
    | cons t ts =>
      have ht := hk t List.mem_cons_self
      by_cases hm : t.kind = .membership ∧ ts.dropWhile isBlank = []
      · obtain ⟨hm, hd⟩ := hm
        have hts : ∀ g ∈ ts, g.isBlank = true := List.dropWhile_eq_nil_iff.1 hd
        have hi' := hi.tail_of_kind (by simp [hm]) (by simp [hm])
        obtain rfl : k = 0 := Option.some.inj ((depthRun_blanks hts).symm.trans hi'.balanced)
        refine ⟨some (d.pushToken t), ?_, fun gs us hg hu ↦ ?_⟩
        · rintro e ⟨⟩
          exact ⟨h.pushToken_of_kind (by simp [hm]) (by simp [hm]), fun _ _ _ hs _ ↦ hs.hold _⟩
        · have hall : (ts ++ (gs ++ us)).dropWhile isBlank = us := by
            rw [← List.append_assoc]
            exact dropWhile_blanks (List.forall_mem_append.2 ⟨hts, hg⟩) hu
          have ha : d.action t = .membership := by simp [action, hm]
          have hs : d.step [] t (ts ++ (gs ++ us)) = .ok (d.pushToken t, us) := by
            rw [Draft.step, ha]
            simp only [hall]
            cases us with
            | nil => rfl
            | cons u us => simp [(hu u rfl).2]
          rw [List.cons_append, parseTokens_step hs]
          rfl
      · have hu : ∀ us, t.kind = .membership ∨ t.kind = .aggregation → ts.dropWhile isBlank = [] →
          OpensNoGroup us :=
          fun us hkind hd ↦ absurd ⟨hkind.resolve_right ht.2, hd⟩ hm
        have hs := (h.step hi (hu [])).2
        have ha := fun us ↦ (h.step hi (hu us)).1
        cases hp : d.step [] t ts with
        | error e =>
          refine ⟨none, ?_, fun gs us _ _ ↦ ?_⟩
          · rintro e ⟨⟩
          rw [List.cons_append, parseTokens_cons, toOption_bind, ha, hp]
          rfl
        | ok p =>
          obtain ⟨m, h', hi'⟩ := hs p hp
          have hl := leaves_step p hp
          have hsuf := suffix_of_step hp
          obtain ⟨r, hr, hrun⟩ := ih p.2.length (by rw [← hn, List.length_cons]; omega) h' hi'
            (fun u hu ↦ hk u (List.mem_cons_of_mem _ (hsuf.mem hu))) rfl
          refine ⟨r, fun e he ↦ ⟨(hr e he).1,
            fun s x hs hpast hcov ↦ (hr e he).2 s x hs ?_ fun hx ↦ ?_⟩, fun gs us hg hu ↦ ?_⟩
          · exact hpast.step hs ht.2 (fun hx ↦ h.inside (hcov hx)) hp
          · exact covered_suffix hi.balanced hi'.balanced (hsuf.trans (List.suffix_cons _ _))
              (hcov hx)
          · rw [List.cons_append, parseTokens_cons, toOption_bind, ha, hp]
            exact hrun gs us hg hu

end QueryTemplate
