import QueryTemplate.Proofs.Query.Step
namespace QueryTemplate

open Token

/-- What a query is made of at one level: texts, and the queries of the next level. -/
inductive Piece
  | text (x : Text)
  | query (q : Query)
  deriving DecidableEq

def Source.pieces : Source Query → List Piece
  | .table xs => xs.map .text
  | .subquery q => [.query q]

def CallArgs.pieces : CallArgs Query → List Piece
  | .list xs => xs.map .text
  | .statement q => [.query q]

/-- The source and the predicates of a join. -/
def Join.pieces (j : Join Query) : List Piece := j.source.pieces ++ j.predicates.map .text

namespace Slots

def texts (x : Slots) : List Text :=
  x.bindings.getD [] ++ x.select.getD [] ++ x.aliases.getD [] ++ x.prewhere.getD [] ++
    x.condition.getD [] ++
    x.groupBy.getD [] ++ x.having.getD [] ++ x.orderBy.getD [] ++ x.limit.getD [] ++ x.format.getD
      []

theorem texts_set (x : Slots) (xs : List Text) (s : Slot) :
    (x.set xs s).texts.Perm (xs ++ (x.set [] s).texts) := by
  rw [List.perm_iff_count]
  intro a
  cases s <;> simp only [texts, set, List.count_append, Option.getD_some, List.count_nil] <;> omega

theorem texts_get (x : Slots) (s : Slot) :
    x.texts.Perm ((x.get s).getD [] ++ (x.set [] s).texts) := by
  rw [List.perm_iff_count]
  intro a
  cases s <;> simp only [texts, get, set, List.count_append, Option.getD_some,
    List.count_nil] <;> omega

end Slots

namespace Query

/-- The pieces of macros, joins and further statements. -/
def parts (q : Query) : List Piece :=
  q.calls.flatMap (·.2.pieces) ++
    (q.joins.flatMap Join.pieces ++ (q.unions.getD []).map Piece.query)

/-- The texts and queries that a query holds, but for the words of its joins. -/
def pieces (q : Query) : List Piece :=
  q.slots.texts.map Piece.text ++
    (q.root.map Piece.text ++ ((q.source.map Source.pieces).getD [] ++ q.parts))

/-- The pieces of a query, one slot apart from the others. -/
theorem pieces_slot (q : Query) (s : Slot) :
    ∃ rest, q.pieces.Perm (((q.slots.get s).getD []).map Piece.text ++ rest) ∧
    ∀ xs, ({ q with slots := q.slots.set xs s }).pieces.Perm (xs.map Piece.text ++ rest) := by
  have apart : ∀ ys xs : List Text, ys.Perm (xs ++ (q.slots.set [] s).texts) → ∀ rest,
      (ys.map Piece.text ++ rest).Perm (xs.map Piece.text ++
          ((q.slots.set [] s).texts.map Piece.text ++ rest)) := by
    intro ys xs h rest
    have h := (h.map Piece.text).append_right rest
    rwa [List.map_append, List.append_assoc] at h
  exact ⟨_, apart _ _ (Slots.texts_get ..) _, fun xs ↦ apart _ _ (Slots.texts_set ..) _⟩

/-- The pieces of a query, its source apart from the others. -/
theorem pieces_source (q : Query) :
    ∃ rest, q.pieces.Perm ((q.source.map Source.pieces).getD [] ++ rest) ∧
    ∀ src, ({ q with source := src }).pieces.Perm ((src.map Source.pieces).getD [] ++ rest) := by
  have apart : ∀ src : List Piece,
    (q.slots.texts.map Piece.text ++ (q.root.map Piece.text ++ (src ++ q.parts))).Perm
      (src ++ (q.slots.texts.map Piece.text ++ (q.root.map Piece.text ++ q.parts))) := fun src ↦
    ((List.perm_append_comm_assoc _ src _).append_left _).trans
      (List.perm_append_comm_assoc _ src _)
  exact ⟨_, apart _, fun src ↦ apart _⟩

/-- The pieces of a query, one clause apart from the others. -/
theorem pieces_modify {q q' : Query} {c : Clause} {f : List Text → List Text}
    (h : q.modify? c f = some q') (hc : ∀ n, c ≠ .call n) :
    ∃ xs rest, q.editable c = some xs ∧ q.pieces.Perm (xs.map Piece.text ++ rest) ∧
      q'.pieces.Perm ((f xs).map Piece.text ++ rest) ∧ q'.calls = q.calls := by
  obtain ⟨rest, h₁, h₂⟩ := q.pieces_source
  cases c with
  | root =>
    obtain rfl := Option.some.inj h
    exact ⟨q.root, _, rfl, List.perm_append_comm_assoc .., List.perm_append_comm_assoc .., rfl⟩
  | unions => cases h
  | call n => exact absurd rfl (hc n)
  | slot s =>
    obtain rfl := Option.some.inj h
    obtain ⟨rest, h₁, h₂⟩ := q.pieces_slot s
    exact ⟨_, rest, rfl, h₁, h₂ _, rfl⟩
  | source =>
    rw [modify?] at h
    split at h
    · rename_i hs
      obtain rfl := Option.some.inj h
      rw [hs] at h₁
      exact ⟨[], rest, by simp [editable, items, hs], h₁, h₂ _, rfl⟩
    · rename_i items hs
      obtain rfl := Option.some.inj h
      rw [hs] at h₁
      exact ⟨items, rest, by simp [editable, Query.items, hs], h₁, h₂ _, rfl⟩
    · rename_i r hs
      obtain rfl := Option.some.inj h
      obtain ⟨rest, h₁, h₂⟩ := q.pieces_slot .aliases
      exact ⟨_, rest, by simp [editable, hs], h₁, h₂ _, rfl⟩

theorem modify_rest {q q' : Query} {c : Clause} {f : List Text → List Text}
    (h : q.modify? c f = some q') :
    q'.joins = q.joins ∧ q'.unions = q.unions := by
  cases c with
  | root | slot =>
    obtain rfl := Option.some.inj h
    exact ⟨rfl, rfl⟩
  | unions => cases h
  | source =>
    rw [modify?] at h
    split at h <;> obtain rfl := Option.some.inj h <;> exact ⟨rfl, rfl⟩
  | call n =>
    rw [modify?] at h
    split at h
    · obtain rfl := Option.some.inj h
      exact ⟨rfl, rfl⟩
    · obtain rfl := Option.some.inj h
      exact ⟨rfl, rfl⟩
    · cases h

theorem open_joins (q : Query) (c : Clause) : (q.open c).joins = q.joins := by
  rw [Query.open.eq_def]
  split
  · rfl
  · cases c <;> rfl

theorem pieces_open (q : Query) {c : Clause} (hc : ∀ n, c ≠ .call n) :
    (q.open c).pieces.Perm q.pieces ∧
    (q.open c).calls = q.calls := by
  rw [Query.open.eq_def]
  split
  · exact ⟨.refl _, rfl⟩
  · rename_i hq
    cases c with
    | root => exact ⟨.refl _, rfl⟩
    | call n => exact absurd rfl (hc n)
    | source =>
      have hs : q.source = none := by simpa [has] using hq
      obtain ⟨rest, h₁, h₂⟩ := q.pieces_source
      rw [hs] at h₁
      exact ⟨(h₂ _).trans h₁.symm, rfl⟩
    | unions =>
      have hs : q.unions = none := by simpa [has] using hq
      refine ⟨?_, rfl⟩
      simp [pieces, parts, hs]
    | slot s =>
      have hs : q.slots.get s = none := by simpa [has] using hq
      obtain ⟨rest, h₁, h₂⟩ := q.pieces_slot s
      rw [hs] at h₁
      exact ⟨(h₂ []).trans h₁.symm, rfl⟩

theorem pieces_unions {q : Query} (h : q.unions = none) (qs : List Query) :
    ({ q with unions := some qs }).pieces.Perm (qs.map Piece.query ++ q.pieces) := by
  have e : ({ q with unions := some qs }).pieces = q.pieces ++ qs.map Piece.query := by
    simp [pieces, parts, h]
  rw [e]
  exact List.perm_append_comm

theorem pieces_subquery {q : Query} (h : q.source.all fun s ↦ s = .table []) (r : Query) :
    ({ q with source := some (.subquery r) }).pieces.Perm (.query r :: q.pieces) := by
  obtain ⟨rest, h₁, h₂⟩ := q.pieces_source
  have hs : (q.source.map Source.pieces).getD [] = [] := by
    cases hq : q.source with
    | none => rfl
    | some s =>
      rw [hq] at h
      obtain rfl : s = .table [] := by simpa using h
      rfl
  rw [hs] at h₁
  exact (h₂ _).trans (h₁.symm.cons _)

/-- A macro is entered, perhaps in the place of another one of its name. -/
theorem insertCall_pieces (n : Text) (a : CallArgs Query) (cs : List (Text × CallArgs Query)) :
    ∃ old, ((insertCall n a cs).flatMap (·.2.pieces) ++ old).Perm (a.pieces ++
      cs.flatMap (·.2.pieces)) ∧
      (old = [] ∨ ∃ b, (n, b) ∈ cs ∧ old = b.pieces) ∧ ∀ c ∈ insertCall n a cs, c = (n, a) ∨
          c ∈ cs := by
  induction cs with
  | nil => exact ⟨[], by simp [insertCall], .inl rfl, by simp [insertCall]⟩
  | cons c cs ih =>
    obtain ⟨m, b⟩ := c
    rw [insertCall]
    split
    · subst_vars
      refine ⟨b.pieces, ?_, .inr ⟨b, List.mem_cons_self, rfl⟩, ?_⟩
      · rw [List.flatMap_cons, List.flatMap_cons, List.append_assoc]
        exact List.perm_append_comm.append_left _
      · intro c hc
        exact (List.mem_cons.1 hc).imp_right (List.mem_cons_of_mem _)
    split
    · refine ⟨[], by simp, .inl rfl, fun c hc ↦ ?_⟩
      exact List.mem_cons.1 hc
    · obtain ⟨old, h₁, h₂, h₃⟩ := ih
      refine ⟨old, ?_, h₂.imp_right fun ⟨b', hb', e⟩ ↦ ⟨b', List.mem_cons_of_mem _ hb', e⟩,
        fun c hc ↦ ?_⟩
      · rw [List.flatMap_cons, List.flatMap_cons, List.append_assoc]
        exact (h₁.append_left _).trans (List.perm_append_comm_assoc ..)
      · rcases List.mem_cons.1 hc with rfl | hc
        · exact .inr List.mem_cons_self
        · exact (h₃ c hc).imp_right (List.mem_cons_of_mem _)

theorem pieces_setCall (q : Query) (n : Text) (a : CallArgs Query) :
    ∃ old, ((q.setCall n a).pieces ++ old).Perm (a.pieces ++ q.pieces) ∧
      (old = [] ∨ ∃ b, (n, b) ∈ q.calls ∧ old = b.pieces) ∧
          ∀ c ∈ (q.setCall n a).calls, c = (n, a) ∨ c ∈ q.calls := by
  obtain ⟨old, h₁, h₂, h₃⟩ := insertCall_pieces n a q.calls
  refine ⟨old, ?_, h₂, h₃⟩
  rw [List.perm_iff_count] at h₁ ⊢
  intro p
  have := h₁ p
  simp only [pieces, parts, setCall, List.count_append] at this ⊢
  omega

theorem pieces_joins (q : Query) (j : Join Query) :
    ({ q with joins := q.joins ++ [j] }).pieces.Perm (j.pieces ++ q.pieces) := by
  rw [List.perm_iff_count]
  intro p
  simp only [pieces, parts, List.flatMap_append, List.flatMap_cons, List.flatMap_nil,
    List.count_append, List.count_nil]
  omega

end Query

namespace Draft

variable {d : Draft} {x : Text}

theorem push_rest (x : Text) (d : Draft) :
    (d.push x).query.joins = d.query.joins ∧ (d.push x).query.unions = d.query.unions := by
  rw [push]
  split
  · exact Query.modify_rest ‹_›
  · exact ⟨rfl, rfl⟩

theorem pushToLast_rest {d' : Draft} (h : d.pushToLast? x = some d') :
    d'.query.joins = d.query.joins ∧ d'.query.unions = d.query.unions := by
  obtain ⟨items, -, h⟩ := Option.bind_eq_some_iff.1 h
  obtain ⟨last, -, h⟩ := Option.bind_eq_some_iff.1 h
  obtain ⟨q, hq, h⟩ := Option.bind_eq_some_iff.1 h
  obtain rfl := Option.some.inj h
  exact Query.modify_rest hq

theorem flush_rest (d : Draft) :
    d.flush.query.joins = d.query.joins ∧ d.flush.query.unions = d.query.unions := by
  rw [flush]
  split
  · exact ⟨rfl, rfl⟩
  split
  · exact push_rest _ _
  · rename_i x _ _
    cases h : pushToLast? x { d with fragment := {} } with
    | none => exact push_rest _ _
    | some e =>
      have hr := pushToLast_rest h
      exact hr

theorem push_pieces (hc : ∀ n, d.clause ≠ .call n) :
    (d.push x).query.pieces.Perm (.text x :: d.query.pieces) ∧
    (d.push x).query.calls = d.query.calls := by
  rw [push]
  split
  · rename_i q hq
    obtain ⟨xs, rest, -, h₁, h₂, h₃⟩ := Query.pieces_modify hq hc
    refine ⟨h₂.trans ?_, h₃⟩
    rw [List.map_append, List.append_assoc]
    exact List.perm_middle.trans (h₁.symm.cons _)
  · refine ⟨?_, rfl⟩
    have h := Query.pieces_modify (q := d.query) (c := .root) (f := (· ++ [x])) rfl (by simp)
    obtain ⟨xs, rest, -, h₁, h₂, -⟩ := h
    refine h₂.trans ?_
    rw [List.map_append, List.append_assoc]
    exact List.perm_middle.trans (h₁.symm.cons _)

/-- Comments after the last item of a clause. -/
theorem pushToLast_pieces {d' : Draft} (h : d.pushToLast? x = some d')
    (hc : ∀ n, d.clause ≠ .call n) :
    ∃ last rest, d.query.pieces.Perm (.text last :: rest) ∧
      d'.query.pieces.Perm (.text (last ++ ' ' :: x) :: rest) ∧
      d'.query.calls = d.query.calls ∧ d'.clause = d.clause ∧ d'.fragment = d.fragment ∧
      ∃ f, d.query.modify? d.clause f = some d'.query := by
  obtain ⟨items, hi, h⟩ := Option.bind_eq_some_iff.1 h
  obtain ⟨last, hl, h⟩ := Option.bind_eq_some_iff.1 h
  obtain ⟨q, hq, h⟩ := Option.bind_eq_some_iff.1 h
  obtain rfl := Option.some.inj h
  obtain ⟨xs, rest, he, h₁, h₂, h₃⟩ := Query.pieces_modify hq hc
  obtain rfl := Option.some.inj (hi.symm.trans he)
  obtain ⟨init, rfl⟩ := List.getLast?_eq_some_iff.1 hl
  refine ⟨last, init.map Piece.text ++ rest, h₁.trans ?_, h₂.trans ?_, h₃, rfl, rfl, _, hq⟩
  · rw [List.map_append, List.append_assoc]
    exact List.perm_middle
  · rw [List.dropLast_concat, List.map_append, List.append_assoc]
    exact List.perm_middle

end Draft
end QueryTemplate
