import QueryTemplate.Proofs.Filter.Typeset
namespace QueryTemplate

variable {q r : Query} {f g : Query → Query}

/-- Levels of nesting that agree in everything but the predicates after `WHERE`. -/
structure AgreeButWhere (q r : Query) : Prop where
  root : r.root = q.root
  calls : r.calls = q.calls
  slots : ∀ s ≠ Slot.condition, r.slots.get s = q.slots.get s
  source : r.source = q.source
  joins : r.joins = q.joins
  unions : r.unions = q.unions

/-- Queries that agree at every level of nesting in everything but the predicates after `WHERE` at
the level that subqueries in `FROM` lead to. -/
inductive AgreeButInnerWhere : Query → Query → Prop
  | level {q r : Query} (table : ∀ x, q.source ≠ some (.subquery x)) (agree : AgreeButWhere q r) :
    AgreeButInnerWhere q r
  | subquery {root calls slots joins unions} {q r : Query} (inner : AgreeButInnerWhere q r) :
    AgreeButInnerWhere ⟨root, calls, slots, some (.subquery q), joins, unions⟩
      ⟨root, calls, slots, some (.subquery r), joins, unions⟩

namespace Query

/-- Two changes of the innermost query are one, if the first one adds no subquery. -/
theorem modifyInnermost_modifyInnermost (hg : ∀ q, (g q).source = q.source) (q : Query) :
    (q.modifyInnermost g).modifyInnermost f = q.modifyInnermost fun r ↦ f (g r) := by
  fun_induction modifyInnermost g q with
  | case1 root calls slots x joins unions ih => rw [modifyInnermost, ih, modifyInnermost]
  | case2 q h =>
    have hq := source_ne_subquery fun _ _ _ _ _ _ ↦ h _ _ _ _ _ _
    rw [modifyInnermost_eq_self fun x ↦ hg q ▸ hq x, modifyInnermost_eq_self hq]

theorem agreeButInnerWhere_modifyInnermost (hf : ∀ q, AgreeButWhere q (f q)) (q : Query) :
    AgreeButInnerWhere q (q.modifyInnermost f) := by
  fun_induction modifyInnermost f q with
  | case1 root calls slots x joins unions ih => exact .subquery ih
  | case2 q h => exact .level (source_ne_subquery fun _ _ _ _ _ _ ↦ h _ _ _ _ _ _) (hf q)

end Query

namespace AgreeButInnerWhere

theorem refl (q : Query) : AgreeButInnerWhere q q := by
  fun_induction Query.innermost q with
  | case1 root calls slots x joins unions ih => exact .subquery ih
  | case2 q h =>
    exact .level (Query.source_ne_subquery fun _ _ _ _ _ _ ↦ h _ _ _ _ _ _)
      ⟨rfl, rfl, fun _ _ ↦ rfl, rfl, rfl, rfl⟩

theorem innermost (h : AgreeButInnerWhere q r) : AgreeButWhere q.innermost r.innermost := by
  induction h with
  | level table agree =>
    rw [Query.innermost_eq_self table, Query.innermost_eq_self (agree.source ▸ table)]
    exact agree
  | subquery inner ih => exact ih

/-- The table that is read does not depend on the predicates. -/
theorem resolve? (h : AgreeButInnerWhere q r) (database table : Text) :
    Target.resolve? r database table = Target.resolve? q database table := by
  have hs : r.innermost.items .source = q.innermost.items .source := by
    rw [Query.items, h.innermost.source]
    rfl
  rw [Target.resolve?, Target.resolve?, hs]

end AgreeButInnerWhere

namespace Filter

variable (q : Query) (a b : List Text)

/-- The change that injected predicates make at the innermost level. -/
theorem agreeButWhere_condition (items : List Text) :
    AgreeButWhere q { q with slots := q.slots.set items .condition } :=
  ⟨rfl, rfl, fun _ hs ↦ Slots.get_set_of_ne _ _ hs, rfl, rfl, rfl⟩

theorem agreeButInnerWhere_inject : AgreeButInnerWhere q (inject q a) := by
  rw [inject]
  split
  · exact .refl q
  · exact Query.agreeButInnerWhere_modifyInnermost (fun r ↦ agreeButWhere_condition r _) q

theorem conjoin_append (items : List Text) :
    conjoin items (a ++ b) = conjoin (conjoin items a) b := List.foldl_append

theorem inject_append : inject q (a ++ b) = inject (inject q a) b := by
  by_cases ha : a = []
  · rw [ha, List.nil_append, inject.eq_def q [], if_pos rfl]
  by_cases hb : b = []
  · rw [hb, List.append_nil, inject.eq_def _ [], if_pos rfl]
  · rw [inject, if_neg (by simp [ha]), inject, if_neg hb, inject, if_neg ha,
      Query.modifyInnermost_modifyInnermost]
    · congr 1
      funext r
      rw [conjoin_append]
      rfl
    · exact fun _ ↦ rfl

/-- What predicates become behind those of a list. -/
theorem conjoin_eq (items : List Text) :
    conjoin items a =
      items ++ a.mapIdx fun i c ↦ if i = 0 ∧ items = [] then c else "AND ".toList ++ c := by
  have hmap : ∀ cs : List Text, (cs.mapIdx fun _ c ↦ "AND ".toList ++ c) = cs.map ("AND ".toList ++ ·) :=
    fun cs ↦ by rw [List.mapIdx_eq_zipIdx_map, ← Function.comp_def, ← List.map_map, List.zipIdx_map_fst]
  by_cases hi : items = []
  · subst hi
    cases a with
    | nil => rfl
    | cons c cs =>
      rw [conjoin_nil, List.nil_append, List.mapIdx_cons, if_pos ⟨rfl, rfl⟩, ← hmap]
      simp only [Nat.add_one_ne_zero, false_and, if_false]
  · rw [conjoin_of_ne_nil hi, ← hmap]
    simp only [hi, and_false, if_false]

theorem condition_inject :
    (inject q a).innermost.slots.condition =
      if a = [] then q.innermost.slots.condition else some (conjoin (innerItems q) a) := by
  rw [inject]
  split
  · rfl
  · rw [Query.innermost_modifyInnermost]
    · rfl
    · exact fun _ ↦ rfl

/-- Injected predicates go one by one to the end of the innermost `WHERE`, and nothing else changes;
so the query reads from the same table as before. -/
theorem inject_frame :
    inject q (a ++ b) = inject (inject q a) b ∧
    AgreeButInnerWhere q (inject q a) ∧
    (inject q a).innermost.slots.condition =
      (if a = [] then q.innermost.slots.condition
        else some (innerItems q ++ a.mapIdx fun i c ↦
          if i = 0 ∧ innerItems q = [] then c else "AND ".toList ++ c)) ∧
    ∀ database table, Target.resolve? (inject q a) database table =
      Target.resolve? q database table := by
  have hagree := agreeButInnerWhere_inject q a
  refine ⟨inject_append q a b, hagree, ?_, hagree.resolve?⟩
  rw [condition_inject, conjoin_eq]

end Filter
end QueryTemplate
