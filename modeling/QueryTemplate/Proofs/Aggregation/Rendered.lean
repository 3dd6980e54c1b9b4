import QueryTemplate.Proofs.Aggregation.Clauses
namespace QueryTemplate

open Token Grammar

variable {q r : Query} {p : Aggregation.Parts} {s w x y z : Text} {gs os : List Text} {cs : List Clause}
  {items : Clause → Option (List Text)}

/-- The clauses of a statement that say what it reads. -/
def Clause.body : List Clause := [.source, .slot .prewhere, .slot .condition]

/-- The clauses behind those that say how it is read. -/
def Clause.trailing : List Clause := [.slot .groupBy, .slot .having, .slot .orderBy, .slot .limit]

namespace Query

theorem innermost_of_table {xs : List Text} (h : q.source = some (.table xs)) : q.innermost = q :=
  innermost_eq_self fun r hr ↦ by simp [h] at hr

theorem innermost_of_subquery (h : q.source = some (.subquery r)) : q.innermost = r.innermost := by
  obtain ⟨root, calls, slots, source, joins, unions⟩ := q
  obtain rfl : source = some (.subquery r) := h
  rw [innermost]

theorem awaits_empty (ho : ∀ c ∈ cs, c ∈ Clause.printOrder) (hn : cs.Nodup) : Awaits {} cs := by
  have hnone : ∀ c ∈ Clause.printOrder, Query.has {} c = false := by decide
  exact ⟨ho, hn, fun c hc ↦ hnone c (ho c hc), rfl⟩

end Query

/-- The trailing clauses without settings. -/
theorem Tail.cons_render (t : Tail) (h : t.settings = none) (x y : Text) : ' ' :: t.render x y =
    " GROUP BY " ++ t.groupBy.getD x ++ Tail.clause "HAVING" t.having ++ " ORDER BY " ++ t.orderBy.getD y ++
      Tail.clause "LIMIT" t.limit := by
  have hlimits : t.limits = Tail.clause "LIMIT" t.limit ++ Tail.clause "SETTINGS" t.settings := rfl
  have hrender : t.render x y = "GROUP BY " ++ t.groupBy.getD x ++ Tail.clause "HAVING" t.having ++
      (' ' :: "ORDER BY" ++ ' ' :: t.orderBy.getD y) ++ t.limits := rfl
  rw [hrender, hlimits, h, show Tail.clause "SETTINGS" none = [] from rfl]
  simp

/-- The trailing clauses without `HAVING`. -/
theorem Tail.render_withoutHaving (t : Tail) (x y : Text) : Tail.render x y { t with having := none } =
    "GROUP BY " ++ t.groupBy.getD x ++ " ORDER BY " ++ t.orderBy.getD y ++ t.limits := by
  have hrender : Tail.render x y { t with having := none } =
      "GROUP BY " ++ t.groupBy.getD x ++ ([] : Text) ++ (' ' :: "ORDER BY" ++ ' ' :: t.orderBy.getD y) ++ t.limits := rfl
  rw [hrender]
  simp

namespace Aggregation

/-- The keys that rows are grouped and ordered by. -/
theorem clauses_keys {o : Option Text} {hs : Option (List Text)} (hx : Content (.slot .groupBy) x gs)
    (hh : Option.Rel (Content (.slot .having)) o hs) (hy : Content (.slot .orderBy) y os) :
    Clauses (" GROUP BY " ++ x ++ Tail.clause "HAVING" o ++ " ORDER BY " ++ y)
      (.items (.slot .groupBy) gs :: ((hs.map (.items (.slot .having))).toList ++ [.items (.slot .orderBy) os])) := by
  have hgroup := Clauses.content (by decide) (by decide) hx
  have hall := (hgroup.optional (by decide) (by decide) hh).append (Clauses.content (by decide) (by decide) hy)
  obtain ⟨hg, hh, ho⟩ : (Clause.slot .groupBy).title.text = "GROUP BY" ∧ (Clause.slot .having).title.text = "HAVING" ∧
      (Clause.slot .orderBy).title.text = "ORDER BY" := by decide
  rw [hg, hh, ho] at hall
  simpa using hall

/-- A text of a statement from which a query with these items is reached through the sources. -/
def Reaches (s : Text) (items : Clause → Option (List Text)) : Prop :=
  ∃ r, Statement s r ∧ ∀ c ∈ Clause.body ++ Clause.trailing, r.innermost.cell c = (items c).map .table

namespace Reaches

/-- A select of the clauses themselves. -/
theorem inner (hx : Term x) (hs : Clauses s (Query.fillings (Clause.body ++ Clause.trailing) items))
    (ht : (items .source).isSome) : Reaches ("SELECT " ++ x ++ s) items := by
  have hsub := Query.map_clause_fillings (Clause.body ++ Clause.trailing) items
  have horder : (.slot .select :: (Clause.body ++ Clause.trailing)).Sublist Clause.printOrder := by decide
  obtain ⟨ys, hst⟩ := hs.select hx ((hsub.cons_cons _).trans horder)
  have hempty : Query.Awaits {} (.slot .select :: (Clause.body ++ Clause.trailing)) := Query.awaits_empty (by decide) (by decide)
  have hcell := Query.cell_puts (hempty.put ys) items
  obtain ⟨xs, hxs⟩ := Option.isSome_iff_exists.1 ht
  have hsource := (hcell .source).trans (if_pos (by decide))
  rw [hxs] at hsource
  have hinner := Query.innermost_of_table hsource
  refine ⟨_, hst, fun c hc ↦ ?_⟩
  rw [Query.puts, List.foldl_cons, ← Query.puts, hinner, hcell, if_pos hc]

/-- A select over the statement. -/
theorem wrap (hx : Term x) (hs : Reaches s items) (hc : cs.Sublist Clause.trailing) {keys : Clause → Option (List Text)}
    (hz : ∀ r, Statement s r → Clauses (" FROM (" ++ s ++ ")" ++ z) (.subquery r [] :: Query.fillings cs keys)) :
    Reaches ("SELECT " ++ x ++ " FROM (" ++ s ++ ")" ++ z) items := by
  obtain ⟨r, hr, hcells⟩ := hs
  have hsub := (Query.map_clause_fillings cs keys).trans hc
  have horder : (.slot .select :: .source :: Clause.trailing).Sublist Clause.printOrder := by decide
  obtain ⟨ys, hst⟩ := (hz r hr).select hx (((hsub.cons_cons _).cons_cons _).trans horder)
  let q : Query := (Query.put {} (.items (.slot .select) ys)).put (.subquery r [])
  have hclosed : ∀ c ∈ Clause.trailing, q.has c = false := by
    intro c hc
    have hother : ∀ c ∈ Clause.trailing, c ≠ .source ∧ c ≠ .slot .select ∧ c ≠ .slot .aliases ∧ Query.has {} c = false := by decide
    obtain ⟨hsource, hselect, haliases, hempty⟩ := hother c hc
    have hprinted : (Filling.subquery r []).clause ∈ Clause.printOrder ∧ (Filling.items (.slot .select) ys).clause ∈ Clause.printOrder :=
      ⟨by simp [Clause.printOrder], by simp [Clause.printOrder]⟩
    rw [Query.has_put hprinted.1 haliases, Query.has_put hprinted.2 haliases]
    simp [hsource, hselect, hempty]
  have htrailing : ∀ c ∈ Clause.trailing, c ∈ Clause.printOrder := by decide
  have hawaits : q.Awaits cs := ⟨fun c h ↦ htrailing c (hc.subset h), hc.nodup (by decide), fun c h ↦ hclosed c (hc.subset h), rfl⟩
  have hsource := Query.cell_puts hawaits keys .source
  have hnot : Clause.source ∉ cs := fun h ↦ absurd (hc.subset h) (by decide)
  rw [if_neg hnot] at hsource
  refine ⟨_, by simpa using hst, fun c hc ↦ ?_⟩
  rw [← hcells c hc, Query.puts, List.foldl_cons, List.foldl_cons, ← Query.puts, Query.innermost_of_subquery hsource]

theorem outer (hx : Term x) (hs : Reaches s items) : Reaches ("SELECT " ++ x ++ " FROM (" ++ s ++ ")") items := by
  have hz : ∀ r, Statement s r →
      Clauses (" FROM (" ++ s ++ ")" ++ ([] : Text)) (.subquery r [] :: Query.fillings [] fun _ ↦ none) := fun r hr ↦ by
    rw [List.append_nil]
    exact Clauses.source hr
  simpa using wrap hx hs (List.nil_sublist _) hz

/-- A select over the statement with keys of its own. -/
theorem grouped {o : Option Text} {hs : Option (List Text)} (hz : Term z) (h : Reaches s items) (hx : Content (.slot .groupBy) x gs)
    (hh : Option.Rel (Content (.slot .having)) o hs) (hy : Content (.slot .orderBy) y os) :
    Reaches ("SELECT " ++ z ++ " FROM (" ++ s ++ ")" ++ (" GROUP BY " ++ x ++ Tail.clause "HAVING" o ++ " ORDER BY " ++ y)) items := by
  let keys : Clause → Option (List Text)
    | .slot .groupBy => some gs
    | .slot .having => hs
    | .slot .orderBy => some os
    | _ => none
  have hkeys : Query.fillings Clause.trailing keys =
      .items (.slot .groupBy) gs :: ((hs.map (.items (.slot .having))).toList ++ [.items (.slot .orderBy) os]) := by
    cases hs <;> rfl
  have hsource : ∀ r, Statement s r → Clauses (" FROM (" ++ s ++ ")" ++ (" GROUP BY " ++ x ++ Tail.clause "HAVING" o ++ " ORDER BY " ++ y))
      (.subquery r [] :: Query.fillings Clause.trailing keys) := fun r hr ↦ by
    rw [hkeys]
    exact (Clauses.source hr).append (clauses_keys hx hh hy)
  exact wrap hz h (List.Sublist.refl _) hsource

end Reaches

/-- The items with others where a clause to group or to order by is missing. -/
def withKeys (gs os : List Text) (items : Clause → Option (List Text)) : Clause → Option (List Text)
  | .slot .groupBy => some ((items (.slot .groupBy)).getD gs)
  | .slot .orderBy => some ((items (.slot .orderBy)).getD os)
  | c => items c

theorem Content.getD {c : Clause} {o : Option Text} {ys : Option (List Text)} {xs : List Text} (h : Option.Rel (Content c) o ys)
    (hx : Content c x xs) : Content c (o.getD x) (ys.getD xs) := by
  cases h with
  | none => exact hx
  | some h => exact h

/-- What an expansion is built from has these items. -/
structure Parts.Holds (p : Parts) (items : Clause → Option (List Text)) : Prop where
  source : ∃ w, (∀ z, attach p.source z = w ++ ' ' :: z) ∧ Clauses (' ' :: w) (Query.fillings Clause.body items)
  table : (items .source).isSome
  groupBy : Option.Rel (Content (.slot .groupBy)) p.tail.groupBy (items (.slot .groupBy))
  having : Option.Rel (Content (.slot .having)) p.tail.having (items (.slot .having))
  orderBy : Option.Rel (Content (.slot .orderBy)) p.tail.orderBy (items (.slot .orderBy))
  limit : Option.Rel (Content (.slot .limit)) p.tail.limit (items (.slot .limit))
  settings : p.tail.settings = none

namespace Parts.Holds

theorem clauses (h : p.Holds items) (hx : Content (.slot .groupBy) x gs) (hy : Content (.slot .orderBy) y os) :
    Clauses (' ' :: p.sourceWithTail x y) (Query.fillings (Clause.body ++ Clause.trailing) (withKeys gs os items)) := by
  obtain ⟨w, hw, hc⟩ := h.source
  have hkeys := hc.append (clauses_keys (Content.getD h.groupBy hx) h.having (Content.getD h.orderBy hy))
  have hlimit := hkeys.optional (by decide) (by decide) h.limit
  rw [show (Clause.slot .limit).title.text = "LIMIT" by decide] at hlimit
  have htext : ' ' :: p.sourceWithTail x y = ' ' :: w ++ (" GROUP BY " ++ p.tail.groupBy.getD x ++ Tail.clause "HAVING" p.tail.having ++
      " ORDER BY " ++ p.tail.orderBy.getD y) ++ Tail.clause "LIMIT" p.tail.limit := by
    rw [Parts.sourceWithTail, hw, p.tail.cons_render h.settings]
    simp only [List.cons_append, List.append_assoc]
  have hfill : Query.fillings (Clause.body ++ Clause.trailing) (withKeys gs os items) = Query.fillings Clause.body items ++
      (.items (.slot .groupBy) ((items (.slot .groupBy)).getD gs) :: (((items (.slot .having)).map (.items (.slot .having))).toList ++
        [.items (.slot .orderBy) ((items (.slot .orderBy)).getD os)])) ++
      ((items (.slot .limit)).map (.items (.slot .limit))).toList := by
    have hbody : (Clause.body.filterMap fun c ↦ (withKeys gs os items c).map (.items c)) = Query.fillings Clause.body items := rfl
    rw [Query.fillings, List.filterMap_append, hbody]
    simp only [Clause.trailing, List.filterMap_cons, List.filterMap_nil, withKeys, Option.map_some, List.append_assoc]
    cases items (.slot .having) <;> cases items (.slot .limit) <;> rfl
  rw [htext, hfill]
  exact hlimit

/-- The statement over the source itself. -/
theorem reaches (h : p.Holds items) (hz : Term z) (hx : Content (.slot .groupBy) x gs) (hy : Content (.slot .orderBy) y os) :
    Reaches ("SELECT " ++ z ++ " " ++ p.sourceWithTail x y) (withKeys gs os items) := by
  simpa using Reaches.inner hz (h.clauses hx hy) h.table

end Parts.Holds

end Aggregation
end QueryTemplate
