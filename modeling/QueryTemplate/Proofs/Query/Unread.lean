import QueryTemplate.Proofs.Query.Reads
import QueryTemplate.Proofs.Query.Stepped
namespace QueryTemplate

open Token

variable {α β : Type} {rest : Text} {t : Token} {ts us : List Token} {d d' : Draft} {q : Query}

theorem suffix_of_group {p : List Token × List Token} (h : group rest ts = .ok p) : p.2 <:+ ts := by
  obtain ⟨e, -, rfl⟩ := closing?_of_group h
  exact ⟨p.1 ++ [e], by simp⟩

theorem suffix_of_expectToken {expected : Text} {p : Token × List Token}
    (h : expectToken expected rest ts = .ok p) :
    p.1 :: p.2 <:+ ts := by
  rw [expectToken] at h
  split at h
  · rename_i e
    obtain rfl := Except.ok.inj h
    exact e ▸ List.dropWhile_suffix isBlank
  · obtain ⟨-, -, h⟩ := ok_of_bind h
    cases h

/-- A result leaves an end of the tokens unread. -/
def LeavesEnd (ts : List Token) (r : Except Error (α × List Token)) : Prop :=
  ∀ p, r = .ok p → p.2 <:+ ts

namespace LeavesEnd

variable {r : Except Error (α × List Token)}

theorem ok {p : α × List Token} (h : p.2 <:+ ts) : LeavesEnd ts (.ok p) :=
  fun _ e ↦ Except.ok.inj e ▸ h

theorem error {e : Error} : LeavesEnd ts (.error e : Except Error (α × List Token)) := nofun

theorem mono (h : LeavesEnd us r) (hs : us <:+ ts) : LeavesEnd ts r := fun p e ↦ (h p e).trans hs

theorem cons (h : LeavesEnd ts r) : LeavesEnd (t :: ts) r := h.mono (List.suffix_cons t ts)

theorem map {f : α × List Token → β} (h : LeavesEnd ts r) :
    LeavesEnd ts (r.map fun p ↦ (f p, p.2)) := by
  intro b e
  obtain ⟨a, ha, rfl⟩ := ok_of_map e
  exact h a ha

theorem bind {f : α × List Token → Except Error (β × List Token)} (h : LeavesEnd ts r)
    (hf : ∀ p, p.2 <:+ ts → LeavesEnd ts (f p)) : LeavesEnd ts (r.bind f) := by
  intro b e
  obtain ⟨a, ha, hb⟩ := ok_of_bind e
  exact hf a (h a ha) b hb

theorem of_bind {s : Except Error β} {f : β → Except Error (α × List Token)}
    (h : ∀ b, LeavesEnd ts (f b)) :
    LeavesEnd ts (s.bind f) := by
  intro p e
  obtain ⟨b, -, hb⟩ := ok_of_bind e
  exact h b p hb

theorem of_map {s : Except Error β} {f : β → α × List Token} (h : ∀ b, (f b).2 <:+ ts) :
    LeavesEnd ts (s.map f) := by
  intro p e
  obtain ⟨b, -, rfl⟩ := ok_of_map e
  exact h b

theorem atEnd {p : α × List Token} (h : p.2 <:+ ts) : LeavesEnd ts (atEnd rest p) := by
  intro b e
  exact eq_of_atEnd e ▸ h

theorem group (rest : Text) (ts : List Token) : LeavesEnd ts (group rest ts) :=
  fun _ h ↦ suffix_of_group h

theorem expectToken (expected rest : Text) (ts : List Token) :
    LeavesEnd ts (expectToken expected rest ts) := fun _ h ↦
  (List.suffix_cons _ _).trans (suffix_of_expectToken h)

theorem callGroup (name rest : Text) (ts : List Token) : LeavesEnd ts (callGroup name rest ts) := by
  refine (expectToken _ _ _).bind fun p hp ↦ ?_
  split
  · exact (group _ _).mono hp
  · exact .error

end LeavesEnd

namespace Join

theorem leavesEnd_arrays (rest : Text) (f : Fragment) (ts : List Token) :
    LeavesEnd ts (arrays rest f ts) := by
  fun_induction arrays rest f ts with
  | case1 => exact .atEnd List.suffix_rfl
  | case2 _ _ _ _ ih => exact ih.cons
  | case3 => exact .ok List.suffix_rfl
  | case4 _ _ _ _ _ _ ih => exact ih.map.cons
  | case5 _ _ _ _ _ _ _ ih => exact ih.cons
  | case6 _ _ _ _ _ _ _ ih => exact ih.cons

theorem leavesEnd_conditions (rest : Text) (f : Fragment) (ts : List Token) :
    LeavesEnd ts (conditions rest f ts) := by
  fun_induction conditions rest f ts with
  | case1 => exact .atEnd List.suffix_rfl
  | case2 _ _ _ _ ih => exact ih.cons
  | case3 => exact .ok List.suffix_rfl
  | case4 _ _ _ _ _ _ ih => exact ih.map.cons
  | case5 _ _ _ _ _ _ _ ih => exact ih.cons
  | case6 _ _ _ _ _ _ _ ih => exact ih.cons

theorem leavesEnd_tableName (rest : Text) (f : Fragment) (ts : List Token) :
    LeavesEnd ts (tableName rest f ts) := by
  fun_induction tableName rest f ts with
  | case1 => exact .atEnd List.suffix_rfl
  | case2 _ _ _ _ ih => exact ih.cons
  | case3 _ _ _ _ _ ih => exact ih.cons
  | case4 => exact .error
  | case5 _ t ts _ _ _ body us h ih => exact (ih.mono (LeavesEnd.group _ _ _ h)).cons
  | case6 => exact .ok List.suffix_rfl

theorem leavesEnd_aliasWords (rest : Text) (ts : List Token) :
    LeavesEnd ts (aliasWords rest ts) := by
  fun_induction aliasWords rest ts with
  | case1 => exact .atEnd List.suffix_rfl
  | case2 _ _ _ ih => exact ih.cons
  | case3 => exact .ok (List.suffix_cons _ _)
  | case4 => exact .ok List.suffix_rfl
  | case5 _ _ _ _ _ ih => exact ih.map.cons

theorem leavesEnd_columnNames (rest : Text) (ts : List Token) :
    LeavesEnd ts (columnNames rest ts) := by
  fun_induction columnNames rest ts with
  | case1 => exact .atEnd List.suffix_rfl
  | case2 _ _ _ ih => exact ih.cons
  | case3 _ _ _ _ ih => exact ih.map.cons
  | case4 => exact .ok List.suffix_rfl

theorem leavesEnd_usingColumns (rest : Text) (ts : List Token) :
    LeavesEnd ts (usingColumns rest ts) := by
  intro p e
  obtain ⟨q, hq, h⟩ := ok_of_bind e
  have hsuffix := suffix_of_expectToken hq
  split at h
  · obtain ⟨g, hg, rfl⟩ := ok_of_map h
    exact ((suffix_of_group hg).trans (List.suffix_cons _ _)).trans hsuffix
  · exact (leavesEnd_columnNames _ _ _ h).trans hsuffix

theorem leavesEnd_someItems {expected : Text} {p : List Text × List Token} (h : p.2 <:+ ts) :
    LeavesEnd ts (someItems expected rest p) := by
  rw [someItems]
  split
  · exact .error
  · exact .ok h

theorem leavesEnd_readSource (t : Token) (rest : Text) (ts : List Token) :
    LeavesEnd ts (readSource t rest ts) := by
  rw [readSource]
  split
  · exact .map ((leavesEnd_arrays _ _ _).bind fun p hp ↦ leavesEnd_someItems hp)
  · refine (LeavesEnd.expectToken _ _ _).bind fun p hp ↦ ?_
    split
    · exact .map ((LeavesEnd.group _ _).mono hp)
    · split
      · exact .map ((leavesEnd_tableName _ _ _).mono hp)
      · exact .error

theorem leavesEnd_readTail (j : Join Query) (rest : Text) (ts : List Token) :
    LeavesEnd ts (readTail j rest ts) := by
  refine (leavesEnd_aliasWords _ _).bind fun p hp ↦ ?_
  dsimp only
  split
  · exact .ok hp
  · split
    · exact .map ((leavesEnd_usingColumns _ _).mono hp)
    · exact .map (((leavesEnd_conditions _ _ _).bind fun q hq ↦ leavesEnd_someItems hq).mono hp)

end Join

theorem leavesEnd_step : LeavesEnd ts (d.step rest t ts) := by
  have hd := List.dropWhile_suffix isBlank (l := ts)
  rw [Draft.step]
  cases d.action t with
  | skip | pushToken | pushComment | openClause | comma | conjunction => exact .ok List.suffix_rfl
  | readUnions => exact .of_bind fun _ ↦ .of_map fun _ ↦ List.nil_suffix
  | readCall => exact (LeavesEnd.callGroup _ _ _).bind fun p hp ↦ .of_map fun _ ↦ hp
  | sourceParen =>
    dsimp only
    split
    · exact .ok List.suffix_rfl
    · refine (LeavesEnd.group _ _).bind fun p hp ↦ ?_
      split
      · exact .ok hp
      · exact .of_map fun _ ↦ hp
  | membership =>
    dsimp only
    split
    · exact .ok List.nil_suffix
    · rename_i o us h
      rw [h] at hd
      split
      · have hus := (LeavesEnd.group rest us).mono ((List.suffix_cons o us).trans hd)
        exact hus.bind fun p hp ↦ .of_map fun _ ↦ hp
      · exact .ok hd
  | readJoin =>
    refine (Join.leavesEnd_readSource _ _ _).bind fun p hp ↦ ?_
    split
    · exact .ok hp
    · exact .map ((Join.leavesEnd_readTail _ _ _).mono hp)
    · exact .of_bind fun q ↦ .map ((Join.leavesEnd_readTail _ _ _).mono hp)

namespace Draft

/-- What a step leaves unread is the end of what it was given. -/
theorem suffix_of_step (hd : d.step rest t ts = .ok (d', us)) : us <:+ ts := leavesEnd_step _ hd

/-- The macros `cs` were read so far, and none of them is still open. -/
structure Holds (d : Draft) (cs : List (Text × CallArgs Query)) : Prop where
  calls : d.query.calls = cs
  clause : ∀ n, d.clause ≠ .call n

namespace Holds

variable {cs : List (Text × CallArgs Query)}

theorem empty : Holds {} [] := ⟨rfl, fun n e ↦ by cases e⟩

theorem push (h : d.Holds cs) (x : Text) : (d.push x).Holds cs :=
  ⟨(push_pieces h.clause).2.trans h.calls, by rw [push_clause]; exact h.clause⟩

theorem flush (h : d.Holds cs) : d.flush.Holds cs := by
  have hempty : Holds { d with fragment := {} } cs := ⟨h.calls, h.clause⟩
  rw [Draft.flush]
  split
  · exact hempty
  split
  · exact hempty.push _
  · rename_i x _ _
    cases e : pushToLast? x { d with fragment := {} } with
    | none => exact hempty.push _
    | some d' =>
      obtain ⟨-, -, -, -, hcalls, hclause, -⟩ := pushToLast_pieces e h.clause
      exact ⟨hcalls.trans h.calls, by rw [Option.getD_some, hclause]; exact h.clause⟩

theorem openClause {c : Clause} (h : d.Holds cs) (hc : ∀ n, c ≠ .call n) :
    (d.openClause c).Holds cs :=
  ⟨(d.flush.query.pieces_open hc).2.trans h.flush.calls, hc⟩

theorem hold (h : d.Holds cs) (f : Fragment) : Holds { d with fragment := f } cs :=
  ⟨h.calls, h.clause⟩

/-- Only a macro is read as one, and what its parentheses enclose becomes its arguments. -/
theorem step (h : d.Holds cs) (hd : d.step rest t ts = .ok (d', us)) :
    d'.Holds cs ∨ ∃ body q, t.kind = .aggregation ∧ d.fragment.isBalanced = true ∧
      callGroup t.text rest ts = .ok (body, us) ∧ parseTokens [] body {} = .ok q ∧
      d'.Holds (Query.insertCall t.text (.ofQuery q) cs) := by
  cases stepped_of_step hd with
  | skip => exact .inl h
  | token | comment | tableCall | member | memberToken => exact .inl (h.hold _)
  | clause _ _ hw =>
    refine .inl (h.openClause fun n e ↦ ?_)
    have hc := List.mem_of_find?_eq_some hw
    simp [e, Clause.keywordClauses] at hc
  | comma =>
    left
    rw [comma]
    split
    · exact h.flush.push _
    · exact h.flush
  | conjunction =>
    left
    rw [conjunction]
    split
    · exact h.flush.hold _
    · exact h.hold _
  | @call p q hk hf hp hq =>
    have hslot : ∀ n, Clause.slot .select ≠ .call n := fun n e ↦ by cases e
    have hopen := ((d.flush.query.setCall t.text (.ofQuery q)).pieces_open hslot).2
    refine .inr ⟨p.1, q, hk, hf, hp, hq, hopen.trans ?_, h.flush.clause⟩
    rw [Query.setCall, h.flush.calls]
  | subquery => exact .inl ⟨h.calls, fun n e ↦ by cases e⟩
  | unions | arrays | table | joinQuery => exact .inl ⟨h.flush.calls, h.flush.clause⟩

end Holds

/-- A query of tokens without macros has none. -/
theorem calls_parse (h : d.Holds []) (hk : ∀ t ∈ ts, t.kind ≠ .aggregation)
    (hq : parseTokens rest ts d = .ok q) :
    q.calls = [] := by
  induction hn : ts.length using Nat.strongRecOn generalizing ts d with
  | ind n ih =>
    cases ts with
    | nil =>
      rw [parseTokens_nil] at hq
      exact eq_of_atEnd hq ▸ h.flush.calls
    | cons t ts =>
      rw [parseTokens_cons] at hq
      obtain ⟨⟨d', us⟩, hs, hq⟩ := ok_of_bind hq
      have hsuffix := suffix_of_step hs
      have hl : us.length < n := by
        rw [← hn]
        exact Nat.lt_succ_of_le hsuffix.length_le
      rcases h.step hs with h' | ⟨-, -, hc, -⟩
      · exact ih us.length hl h'
          (fun u hu ↦ hk u (List.mem_cons_of_mem t (hsuffix.mem hu))) hq rfl
      · exact absurd hc (hk t List.mem_cons_self)

end Draft

end QueryTemplate
