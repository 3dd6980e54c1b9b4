import QueryTemplate.Proofs.Query.Assign
namespace QueryTemplate

theorem join_cons (sep x : Text) (xs : List Text) :
    Text.join sep (x :: xs) = x ++ xs.flatMap (sep ++ ·) := by
  induction xs generalizing x with
  | nil => simp [Text.join]
  | cons y xs ih => simp [Text.join, ih]

theorem join_append (sep : Text) {a b : List Text} (ha : a ≠ []) (hb : b ≠ []) :
    Text.join sep (a ++ b) = Text.join sep a ++ sep ++ Text.join sep b := by
  obtain ⟨x, a, rfl⟩ := List.exists_cons_of_ne_nil ha
  obtain ⟨y, b, rfl⟩ := List.exists_cons_of_ne_nil hb
  simp [join_cons]

theorem flatMap_congr {α β : Type} {xs : List α} {f g : α → List β} (h : ∀ x ∈ xs, f x = g x) :
    xs.flatMap f = xs.flatMap g := by
  rw [List.flatMap_def, List.flatMap_def, List.map_congr_left h]

/-- What stands in the order of its keys is found in that order. -/
theorem flatMap_of_sublist {α β κ : Type} [DecidableEq κ] {key : β → κ} {cs : List κ} {ps : List β}
    (h : (ps.map key).Sublist cs) (hn : cs.Nodup) (f : β → List α) :
    (cs.flatMap fun c ↦ match ps.find? (key · = c) with
      | some p => f p
      | none => []) = ps.flatMap f := by
  induction cs generalizing ps with
  | nil =>
    obtain rfl := List.map_eq_nil_iff.1 (List.sublist_nil.1 h)
    rfl
  | cons c cs ih =>
    obtain ⟨hc, hcs⟩ := List.nodup_cons.1 hn
    rcases List.sublist_cons_iff.1 h with h | ⟨r, e, h⟩
    · have hf : ps.find? (key · = c) = none := by
        refine List.find?_eq_none.2 fun p hp e ↦ hc ?_
        rw [← show key p = c by simpa using e]
        exact h.mem (List.mem_map_of_mem hp)
      rw [List.flatMap_cons, hf, ih h hcs]
      rfl
    · obtain ⟨p, ps, rfl, rfl, rfl⟩ := List.map_eq_cons_iff.1 e
      rw [List.flatMap_cons, List.find?_cons_of_pos (by simp), List.flatMap_cons, ← ih h hcs]
      refine congrArg (f p ++ ·) (flatMap_congr fun d hd ↦ ?_)
      rw [List.find?_cons_of_neg]
      simp only [decide_eq_true_eq]
      rintro rfl
      exact hc hd

/-- The keyword of a clause as it is printed. -/
def Clause.title (c : Clause) : Token := ⟨.clause, Text.upper c.name⟩

theorem title_spec :
    ∀ c ∈ Clause.keywordClauses, Lexed [c.title] ∧ Clause.ofKeyword? c.title.keyword = some c ∧
    c.title.keyword = c.name := by decide +kernel

/-- The clauses in the order in which they are printed. -/
def Clause.printOrder : List Clause :=
  [.slot .bindings, .slot .select, .source, .slot .prewhere, .slot .condition, .slot .groupBy,
    .slot .having,
    .slot .orderBy, .slot .limit, .slot .format]

namespace Query

/-- The lines of a clause that is a list. -/
def listLines (indent : Text) (c : Clause) (xs : List Text) : List Text :=
  clauseLines indent c.title.text (if c.isPredicate then [] else [',']) (if c.isPredicate
    then foldMarkers xs else xs)

/-- The line of a subquery in `FROM` and its aliases. -/
def subqueryLine (indent : Text) (q : Query) (aliases : List Text) : Text :=
  aliases.foldl glue (indent ++ "FROM " ++ parenthesized indent (q.lines (indent ++ tab)))

/-- The lines of one clause. -/
def clauseOf (indent : Text) (q : Query) (c : Clause) : List Text :=
  match c with
  | .source =>
    match q.source with
    | none => []
    | some (.table xs) => listLines indent .source xs
    | some (.subquery r) => [subqueryLine indent r (q.slots.aliases.getD [])]
  | c =>
    match q.items c with
    | none => []
    | some xs => listLines indent c xs

/-- The statements after `UNION ALL`. -/
def branchLines (indent : Text) (q : Query) : List Text :=
  match q.unions with
  | none => []
  | some qs => lines.unionLines indent qs

theorem slotLines_eq (indent : Text) (q : Query) (s : Slot) :
    slotLines indent q.slots s = q.clauseOf indent (.slot s) := by
  simp only [slotLines, clauseOf, items]
  cases q.slots.get s with
  | none => rfl
  | some xs =>
    simp only [listLines]
    split <;> rfl

theorem clauseOf_of_items {q : Query} {c : Clause} {xs : List Text} (indent : Text)
    (h : q.items c = some xs) :
    q.clauseOf indent c = listLines indent c xs := by
  cases c with
  | source =>
    simp only [items] at h
    split at h
    · rename_i e
      obtain rfl := Option.some.inj h
      simp only [clauseOf, e]
    · cases h
  | root | unions | slot | call => simp only [clauseOf, h]

theorem clauseOf_of_none {q : Query} {c : Clause} (indent : Text) (h : q.items c = none)
    (hs : c = .source → q.source = none) : q.clauseOf indent c = [] := by
  cases c with
  | source => simp only [clauseOf, hs rfl]
  | root | unions | slot | call => simp only [clauseOf, h]

/-- A query without joins and macros is printed clause by clause. -/
theorem lines_eq {q : Query} (indent : Text) (hr : q.root = []) (hc : q.calls = [])
    (hj : q.joins = []) (hs : q.slots.select ≠ some [])
    (hu : q.unions = none ∨ q.slots.format = none) :
    q.lines indent = Clause.printOrder.flatMap (q.clauseOf indent) ++ q.branchLines indent := by
  have hsource : (match q.source with
      | none => []
      | some (.table items) => clauseLines indent "FROM" [','] items
      | some (.subquery r) => [(q.slots.aliases.getD []).foldl glue
          (indent ++ "FROM " ++ parenthesized indent (r.lines (indent ++ tab)))]) =
              q.clauseOf indent .source := by
    simp only [clauseOf]
    cases q.source with
    | none => rfl
    | some s => cases s <;> rfl
  have hlast : q.branchLines indent ++ q.clauseOf indent (.slot .format) =
      q.clauseOf indent (.slot .format) ++ q.branchLines indent := by
    rcases hu with hu | hu
    · simp [branchLines, hu]
    · have hf : q.items (.slot .format) = none := hu
      simp [clauseOf, hf]
  simp only [Clause.printOrder, List.flatMap_cons, List.flatMap_nil, List.append_nil,
    List.append_assoc, ← hlast]
  simp only [← slotLines_eq, ← hsource]
  obtain ⟨root, calls, slots, source, joins, unions⟩ := q
  obtain rfl : root = [] := hr
  obtain rfl : calls = [] := hc
  obtain rfl : joins = [] := hj
  rw [lines.eq_def]
  dsimp only
  rw [if_neg (show ¬ slots.select = some [] from hs)]
  rcases source with _ | _ | _ <;> cases unions <;>
    simp only [List.flatMap_cons, List.flatMap_nil, lines.callLines, lines.joinLines, List.map_nil,
      List.nil_append, List.append_nil, List.append_assoc, branchLines]

end Query
end QueryTemplate
