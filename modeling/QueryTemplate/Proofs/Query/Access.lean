import QueryTemplate.Proofs.Aggregation.Located
import Mathlib.Data.List.Lex
import Mathlib.Data.Char
namespace QueryTemplate

variable {q r : Query} {c : Clause} {n : Text} {a : CallArgs Query}
  {cs : List (Text × CallArgs Query)} {f : List Text → List Text}

namespace Query

theorem filter_insertCall {p : Text × CallArgs Query → Bool} (hp : ∀ b, p (n, b) = false) :
    (insertCall n a cs).filter p = cs.filter p := by
  induction cs with
  | nil => simp [insertCall, hp]
  | cons c cs ih =>
    obtain ⟨m, b⟩ := c
    rw [insertCall]
    split
    · subst_vars
      simp [hp]
    · split
      · simp [List.filter_cons, hp]
      · rw [List.filter_cons, ih, List.filter_cons]

/-- Macros are entered in the order of their names. -/
theorem pairwise_insertCall (h : (cs.map Prod.fst).Pairwise (· < ·)) :
    ((insertCall n a cs).map Prod.fst).Pairwise (· < ·) := by
  induction cs with
  | nil => exact List.pairwise_singleton _ _
  | cons c cs ih =>
    obtain ⟨m, b⟩ := c
    obtain ⟨hm, hcs⟩ := List.pairwise_cons.1 h
    rw [insertCall]
    split
    · subst_vars
      exact h
    · rename_i hne
      split
      · rename_i hlt
        refine List.pairwise_cons.2 ⟨List.forall_mem_cons.2 ⟨hlt, fun l hl ↦ ?_⟩, h⟩
        exact lt_trans hlt (hm l hl)
      · rename_i hlt
        refine List.pairwise_cons.2 ⟨List.forall_mem_map.2 fun p hp ↦ ?_, ih hcs⟩
        obtain ⟨-, -, -, hmem⟩ := insertCall_pieces n a cs
        rcases hmem p hp with rfl | hp
        · exact lt_of_le_of_ne (not_lt.1 hlt) (Ne.symm hne)
        · exact hm _ (List.mem_map_of_mem hp)

/-- Arguments that are entered again are the last ones. -/
theorem insertCall_insertCall (b : CallArgs Query) :
    insertCall n b (insertCall n a cs) = insertCall n b cs := by
  induction cs with
  | nil => simp [insertCall]
  | cons c cs ih =>
    obtain ⟨m, x⟩ := c
    rw [insertCall]
    split
    · subst_vars
      simp [insertCall]
    · rename_i hne
      split
      · rename_i hlt
        simp [insertCall, hne, hlt]
      · rename_i hlt
        rw [insertCall, if_neg hne, if_neg hlt, insertCall, if_neg hne, if_neg hlt, ih]

/-- The queries agree in everything but the clause `c`, and macros stay in the order of their
names. -/
structure AgreeBut (c : Clause) (q r : Query) : Prop where
  root : c ≠ .root → r.root = q.root
  calls : r.calls.filter (fun p ↦ c ≠ .call p.1) = q.calls.filter fun p ↦ c ≠ .call p.1
  names : (q.calls.map Prod.fst).Pairwise (· < ·) → (r.calls.map Prod.fst).Pairwise (· < ·)
  slots : ∀ s, c ≠ .slot s → r.slots.get s = q.slots.get s
  source : c ≠ .source → r.source = q.source
  joins : r.joins = q.joins
  unions : c ≠ .unions → r.unions = q.unions

namespace AgreeBut

theorem refl (c : Clause) (q : Query) : q.AgreeBut c q :=
  ⟨fun _ ↦ rfl, rfl, id, fun _ _ ↦ rfl, fun _ ↦ rfl, rfl, fun _ ↦ rfl⟩

theorem setRoot (xs : List Text) (q : Query) : AgreeBut .root q { q with root := xs } :=
  { refl .root q with root := fun h ↦ absurd rfl h }

theorem setSource (s : Option (Source Query)) (q : Query) :
    AgreeBut .source q { q with source := s } :=
  { refl .source q with source := fun h ↦ absurd rfl h }

theorem setUnions (u : Option (List Query)) (q : Query) :
    AgreeBut .unions q { q with unions := u } :=
  { refl .unions q with unions := fun h ↦ absurd rfl h }

theorem setSlot (xs : List Text) (s : Slot) (q : Query) :
    AgreeBut (.slot s) q { q with slots := q.slots.set xs s } :=
  { refl (.slot s) q with
    slots := fun _ h ↦ Slots.get_set_of_ne _ _ fun e ↦ h (by rw [e]) }

theorem setCall (n : Text) (a : CallArgs Query) (q : Query) :
    AgreeBut (.call n) q (q.setCall n a) :=
  { refl (.call n) q with
    calls := filter_insertCall (by simp)
    names := pairwise_insertCall }

end AgreeBut

theorem lookupCall_setCall : (q.setCall n a).lookupCall n = some a := by
  rw [lookupCall, setCall, lookup_insertCall, if_pos rfl]

theorem setCall_setCall (b : CallArgs Query) :
    (q.setCall n a).setCall n b = q.setCall n b := by
  rw [setCall, setCall, insertCall_insertCall, setCall]

theorem has_open_self (q : Query) (c : Clause) : (q.open c).has c = true := by
  rw [Query.open.eq_def]
  split
  · assumption
  · cases c with
    | root | source | unions => rfl
    | slot s => simp [has]
    | call n => simp [has, lookupCall_setCall]

theorem open_of_has (h : q.has c = true) : q.open c = q := by rw [Query.open.eq_def, if_pos h]

theorem agreeBut_open (q : Query) (c : Clause) : q.AgreeBut c (q.open c) := by
  rw [Query.open.eq_def]
  split
  · exact .refl c q
  · cases c with
    | root => exact .refl _ q
    | source => exact .setSource _ q
    | unions => exact .setUnions _ q
    | slot s => exact .setSlot _ s q
    | call n => exact .setCall n _ q

/-- The clause that holds what is put into the clause `c`: what follows a subquery in `FROM` is
among its aliases. -/
def home (q : Query) : Clause → Clause
  | .source =>
    match q.source with
    | some (.subquery _) => .slot .aliases
    | _ => .source
  | c => c

/-- The query with the items `xs` in a clause that can hold them. -/
def refill (xs : List Text) (q : Query) : Clause → Query
  | .root => { q with root := xs }
  | .call n => q.setCall n (.list xs)
  | c => q.assign xs c

/-- No fragments are held by `UNION ALL`, nor by a macro that encloses a statement. -/
def HoldsNone (q : Query) (c : Clause) : Prop :=
  c = .unions ∨ ∃ n r, c = .call n ∧ q.lookupCall n = some (.statement r)

theorem agreeBut_refill (xs : List Text) (q : Query) (c : Clause) : q.AgreeBut c (q.refill xs c) := by
  cases c with
  | root => exact .setRoot xs q
  | source => exact .setSource _ q
  | unions => exact .refl _ q
  | slot s => exact .setSlot xs s q
  | call n => exact .setCall n _ q

theorem items_refill {xs : List Text} (hc : c ≠ .unions) : (q.refill xs c).items c = some xs := by
  cases c with
  | root => rfl
  | unions => exact absurd rfl hc
  | source => rfl
  | slot s => exact items_assign (c := .slot s) rfl
  | call n => simp [refill, items, lookupCall_setCall]

theorem modify?_eq_none_iff : q.modify? c f = none ↔ q.HoldsNone c := by
  cases c with
  | root | unions | slot => simp [modify?, HoldsNone]
  | source =>
    simp only [modify?, HoldsNone]
    split <;> simp
  | call n =>
    simp only [modify?, HoldsNone]
    split <;> simp_all

/-- A change of a clause fills its home with the items there, changed; there are none if it is not
open. -/
theorem eq_of_modify? (h : q.modify? c f = some r) :
    r = q.refill (f ((q.items (q.home c)).getD [])) (q.home c) ∧ q.home c ≠ .unions := by
  cases c with
  | root | slot => exact ⟨(Option.some.inj h).symm, nofun⟩
  | unions => cases h
  | source =>
    simp only [modify?] at h
    split at h
    all_goals
      rename_i hs
      obtain rfl := Option.some.inj h
      simp [home, hs, items, refill, assign]
  | call n =>
    simp only [modify?] at h
    split at h
    · rename_i hc
      obtain rfl := Option.some.inj h
      simp [home, hc, items, refill]
    · rename_i hc
      obtain rfl := Option.some.inj h
      simp [home, hc, items, refill]
    · cases h

/-- A clause need not be open to be changed. -/
theorem modify?_open (q : Query) (c : Clause) (f : List Text → List Text) :
    (q.open c).modify? c f = q.modify? c f := by
  cases h : q.has c with
  | true => rw [open_of_has h]
  | false =>
    rw [Query.open.eq_def, h, if_neg Bool.false_ne_true]
    cases c with
    | root | unions => rfl
    | source =>
      have hs : q.source = none := by simpa [has] using h
      simp [modify?, hs]
    | slot s =>
      have hs : q.slots.get s = none := by simpa [has] using h
      have := assign_assign q [] (f []) s
      simpa [modify?, hs, assign] using this
    | call n =>
      have hc : q.lookupCall n = none := by simpa [has] using h
      simp only [modify?, lookupCall_setCall, hc, setCall_setCall]

/-- What is changed are the items at the home of the clause. -/
theorem editable_eq (q : Query) (c : Clause) (f : List Text → List Text) :
    q.editable c = (q.modify? c f).map fun _ ↦ (q.items (q.home c)).getD [] := by
  cases c with
  | root | unions | slot => rfl
  | source => rcases hs : q.source with _ | (xs | s) <;> simp [editable, modify?, home, items, hs]
  | call n =>
    rcases hc : q.lookupCall n with _ | (xs | s) <;> simp [editable, modify?, home, items, hc]

theorem source_of_home (h : q.home c ≠ c) : c = .source ∧ ∃ s, q.source = some (.subquery s) := by
  cases c with
  | source =>
    simp only [home] at h
    split at h
    · exact ⟨rfl, _, ‹_›⟩
    · exact absurd rfl h
  | root | unions | slot | call => exact absurd rfl h

/-- What is put into a clause is the last item at its home; a clause whose home is another one has
no items. -/
theorem items_push? {x : Text} (h : q.push? c x = some r) :
    r.items (q.home c) = some ((q.items (q.home c)).getD [] ++ [x]) ∧
      (q.home c ≠ c → r.items c = none) := by
  obtain ⟨rfl, hc⟩ := eq_of_modify? h
  refine ⟨items_refill hc, fun hne ↦ ?_⟩
  obtain ⟨rfl, s, hs⟩ := source_of_home hne
  simp [home, hs, refill, assign, items]

/-- A clause is opened once, what is put into it stands after the items that it had, and nothing else
changes. -/
theorem access_coherent (q : Query) (c : Clause) :
    ((q.open c).has c = true ∧ (q.open c).open c = q.open c ∧ (q.has c = true → q.open c = q) ∧
      q.AgreeBut c (q.open c)) ∧
    (∀ f, (q.open c).modify? c f = q.modify? c f ∧ (q.modify? c f = none ↔ q.HoldsNone c) ∧
      q.editable c = (q.modify? c f).map (fun _ ↦ (q.items (q.home c)).getD []) ∧
      ∀ r, q.modify? c f = some r → q.AgreeBut (q.home c) r) ∧
    ∀ x r, q.push? c x = some r →
      r.items (q.home c) = some ((q.items (q.home c)).getD [] ++ [x]) ∧
        (q.home c ≠ c → r.items c = none) := by
  have hhas := has_open_self q c
  refine ⟨⟨hhas, open_of_has hhas, open_of_has, agreeBut_open q c⟩,
    fun f ↦ ⟨modify?_open q c f, modify?_eq_none_iff, editable_eq q c f, fun r h ↦ ?_⟩,
    fun x r ↦ items_push?⟩
  rw [(eq_of_modify? h).1]
  exact agreeBut_refill _ q _

theorem access_coherent_subquery :
    let q : Query := { source := some (.subquery {}), slots := { aliases := some ["AS"] } }
    ∃ r, q.push? .source "x" = some r ∧
      r.items (.slot .aliases) = some (["AS", "x"] : List Text) ∧ r.items .source = none ∧
      q.AgreeBut (.slot .aliases) r := by
  intro q
  obtain ⟨-, hmodify, hpush⟩ := access_coherent q .source
  obtain ⟨r, hr⟩ : ∃ r, q.push? .source "x" = some r := ⟨_, rfl⟩
  obtain ⟨hitems, hnone⟩ := hpush _ r hr
  exact ⟨r, hr, hitems, hnone nofun, (hmodify _).2.2.2 r hr⟩

end Query
end QueryTemplate
