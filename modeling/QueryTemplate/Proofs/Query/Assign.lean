import QueryTemplate.Proofs.Query.Reads
namespace QueryTemplate

open Token

/-- The clauses whose items are a list. -/
def Clause.isListed : Clause → Bool
  | .slot _ | .source => true
  | _ => false

namespace Query

/-- The query with the items `xs` in a clause. -/
def assign (q : Query) (xs : List Text) : Clause → Query
  | .slot s => { q with slots := q.slots.set xs s }
  | .source => { q with source := some (.table xs) }
  | _ => q

variable {q : Query} {c e : Clause} {xs : List Text}

theorem assign_assign (q : Query) (xs ys : List Text) (s : Slot) :
    (q.assign xs (.slot s)).assign ys (.slot s) = q.assign ys (.slot s) := by
  cases s <;> rfl

theorem has_assign (hc : c.isListed = true) :
    (q.assign xs c).has e = (decide (e = c) || q.has e) := by
  cases c with
  | slot s =>
    cases e with
    | slot r =>
      by_cases h : r = s
      · simp [assign, has, h]
      · simp [assign, has, h, Slots.get_set_of_ne _ _ h]
    | root | source | unions | call => simp [assign, has, lookupCall]
  | source => cases e <;> simp [assign, has, lookupCall]
  | root | unions | call => cases hc

theorem items_assign (hc : c.isListed = true) : (q.assign xs c).items c = some xs := by
  cases c with
  | slot s => simp [assign, items]
  | source => rfl
  | root | unions | call => cases hc

theorem items_assign_of_ne (hc : c.isListed = true) (he : e ≠ c) :
    (q.assign xs c).items e = q.items e := by
  cases c with
  | slot s =>
    cases e with
    | slot r => exact Slots.get_set_of_ne _ _ fun h ↦ he (by rw [h])
    | root | source | unions | call => rfl
  | source => cases e <;> first | rfl | exact absurd rfl he
  | root | unions | call => cases hc

theorem open_eq_assign (hc : c.isListed = true) (h : q.has c = false) :
    q.open c = q.assign [] c := by
  rw [Query.open.eq_def, h]
  cases c with
  | slot s => rfl
  | source => rfl
  | root | unions | call => cases hc

end Query

namespace Draft

/-- What the draft comes to if nothing more is put into its clause. -/
structure Ends (d : Draft) (q : Query) : Prop where
  query : d.flush.query = q
  balanced : d.fragment.isBalanced = true
  has : ∀ c ∈ Clause.keywordClauses, d.query.has c = q.has c

theorem ends_empty : Ends {} {} := ⟨rfl, rfl, fun _ _ ↦ rfl⟩

variable {rest : Text} {d : Draft} {q : Query} {c : Clause} {xs ys : List Text} {f g : Fragment}
    {t : Token} {us : List Token}

theorem push_assign (hc : c.isListed = true) (x : Text) :
    push x ⟨q.assign ys c, c, f⟩ = ⟨q.assign (ys ++ [x]) c, c, f⟩ := by
  have hset : ∀ (v : Slots) (s : Slot) (a b : List Text), (v.set a s).set b s = v.set b s := by
    intro v s a b
    cases s <;> rfl
  cases c with
  | slot s => simp [push, Query.push?, Query.modify?, Query.assign, hset]
  | source => rfl
  | root | unions | call => cases hc

theorem addItems_assign (hc : c.isListed = true) :
    addItems xs ⟨q.assign ys c, c, f⟩ = ⟨q.assign (ys ++ xs) c, c, f⟩ := by
  induction xs generalizing ys with
  | nil => rw [List.append_nil]; rfl
  | cons x xs ih => rw [addItems, List.foldl_cons, push_assign hc, ← addItems, ih,
    List.append_assoc]; rfl

/-- A clause keyword opens its clause. -/
theorem Ends.parse_heading (hd : d.Ends q) (ht : t.kind = .clause)
    (hw : Clause.ofKeyword? t.keyword = some c) (hc : c.isListed = true) (hq : q.has c = false) :
    parseTokens rest (t :: us) d = parseTokens rest us ⟨q.assign [] c, c, {}⟩ := by
  have hu : c ≠ .unions := by
    rintro rfl
    cases hc
  have ha : d.action t = .openClause c := by
    simp only [Draft.action, ht, hw, hd.balanced, hd.has c (List.mem_of_find?_eq_some hw), hq, hu,
      if_false]
    rfl
  have hs : d.step rest t us = .ok (d.openClause c, us) := by rw [Draft.step, ha]
  rw [parseTokens_step hs, Draft.openClause, hd.query, Query.open_eq_assign hc hq,
    Draft.flush_fragment]

end Draft
end QueryTemplate
