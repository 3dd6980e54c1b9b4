import QueryTemplate.Query.Draft

namespace QueryTemplate

open Token

/-- A result leaves at most `n` tokens unread. -/
def LeavesAtMost (n : Nat) (r : Except Error (α × List Token)) : Prop :=
  ∀ p, r = .ok p → p.2.length ≤ n

namespace LeavesAtMost

variable {m n : Nat} {r : Except Error (α × List Token)}

theorem map {f : α × List Token → β} (h : LeavesAtMost n r) :
    LeavesAtMost n (r.map fun p ↦ (f p, p.2)) := by
  intro b e
  cases r with
  | error => cases e
  | ok a => exact Except.ok.inj e ▸ h a rfl

theorem bind {f : α × List Token → Except Error (β × List Token)} (h : LeavesAtMost m r)
    (hf : ∀ p, p.2.length ≤ m → LeavesAtMost n (f p)) : LeavesAtMost n (r.bind f) := by
  intro b e
  cases r with
  | error => cases e
  | ok a => exact hf a (h a rfl) b e

theorem ok {p : α × List Token} (h : p.2.length ≤ n) : LeavesAtMost n (.ok p) :=
  fun _ e ↦ Except.ok.inj e ▸ h

theorem error {e : Error} : LeavesAtMost n (.error e : Except Error (α × List Token)) :=
  fun _ h ↦ nomatch h

theorem mono (h : LeavesAtMost m r) (hn : m ≤ n) : LeavesAtMost n r :=
  fun p e ↦ Nat.le_trans (h p e) hn

theorem atEnd {rest : Text} {p : α × List Token} (h : p.2.length ≤ n) :
    LeavesAtMost n (atEnd rest p) := by
  rw [QueryTemplate.atEnd]
  split
  · exact .ok h
  · exact .error

theorem group (rest : Text) (ts : List Token) : LeavesAtMost ts.length (group rest ts) := by
  intro p e
  have := group_length e
  omega

theorem expectToken (expected rest : Text) (ts : List Token) :
    LeavesAtMost ts.length (expectToken expected rest ts) := by
  have h := (List.dropWhile_suffix isBlank (l := ts)).length_le
  rw [QueryTemplate.expectToken]
  split
  · rename_i e
    rw [e, List.length_cons] at h
    exact .ok (Nat.le_of_succ_le h)
  · rw [QueryTemplate.atEnd]
    split
    · exact .error
    · exact .error

end LeavesAtMost

namespace Join

/-- The expressions of an array join, up to the next clause or join. -/
def arrays (rest : Text) (f : Fragment) : List Token → Except Error (List Text × List Token)
  | [] => atEnd rest (f.take?.toList, [])
  | t :: ts =>
    if t.isBlank then arrays rest f ts
    else if f.isBalanced && (t.kind = .clause || t.kind = .join || t.kind = .joinConstraint) then
      .ok (f.take?.toList, t :: ts)
    else if f.isBalanced && t.isComma then
      (arrays rest {} ts).map fun p ↦ (f.take?.toList ++ p.1, p.2)
    else if t.kind = .comment then arrays rest (f.pushComment t) ts
    else arrays rest (f.pushToken t) ts

/-- The rest of a table name or of the call of a table function, of which `f` was read. -/
def tableName (rest : Text) (f : Fragment) (ts : List Token) : Except Error (Text × List Token) :=
  match ts with
  | [] => atEnd rest (f.text, [])
  | t :: ts =>
    if t.isBlank then tableName rest f ts
    else if (t.text = ['.'] || f.text.getLast? = some '.') && t.kind ≠ .comment then
      tableName rest (f.pushToken t) ts
    else if t.isOpenParen && f.text.getLast? ≠ some ')' then
      match _h : group rest ts with
      | .error e => .error e
      | .ok (body, us) => tableName rest (f.pushText ('(' :: textOf body ++ ")")) us
    else .ok (f.text, t :: ts)
termination_by ts.length
decreasing_by
  · simp
  · simp
  · have := group_length _h
    simp only [List.length_cons]
    omega

/-- The words after a join source up to `USING`, `ON`, a comma, or the next clause or join. -/
def aliasWords (rest : Text) :
    List Token → Except Error ((List Text × Option Token) × List Token)
  | [] => atEnd rest (([], none), [])
  | t :: ts =>
    if t.isBlank then aliasWords rest ts
    else if t.kind = .joinConstraint then .ok (([], some t), ts)
    else if t.kind = .join || t.kind = .clause || t.isComma then .ok (([], none), t :: ts)
    else (aliasWords rest ts).map fun p ↦ ((t.text :: p.1.1, p.1.2), p.2)

/-- The names after `USING` without parentheses. -/
def columnNames (rest : Text) : List Token → Except Error (List Text × List Token)
  | [] => atEnd rest ([], [])
  | t :: ts =>
    if t.isBlank || t.isComma then columnNames rest ts
    else if t.kind = .identifier || t.kind = .string then
      (columnNames rest ts).map fun p ↦ (t.text :: p.1, p.2)
    else .ok ([], t :: ts)

def usingColumns (rest : Text) (ts : List Token) : Except Error (List Text × List Token) :=
  (expectToken "USING columns" rest ts).bind fun p ↦
    if p.1.isOpenParen then (group rest p.2).map fun g ↦ (argumentsOf g.1, g.2)
    else columnNames rest (p.1 :: p.2)

/-- The predicates after `ON`, up to the next clause or join. -/
def conditions (rest : Text) (f : Fragment) : List Token → Except Error (List Text × List Token)
  | [] => atEnd rest (f.take?.toList, [])
  | t :: ts =>
    if t.isBlank then conditions rest f ts
    else if f.isBalanced && (t.kind = .clause || t.kind = .join) then
      .ok (f.take?.toList, t :: ts)
    else if f.isBalanced && t.kind = .conjunction then
      (conditions rest (Fragment.pushToken t {}) ts).map fun p ↦ (f.take?.toList ++ p.1, p.2)
    else if t.kind = .comment then conditions rest (f.pushComment t) ts
    else conditions rest (f.pushToken t) ts

/-- The items of a list that must not be empty. -/
def someItems (expected rest : Text) (p : List Text × List Token) :
    Except Error (List Text × List Token) :=
  if p.1 = [] then .error (.unexpected expected [] (textOf p.2.tail ++ rest)) else .ok p

/-- What a join phrase is followed by. -/
inductive Start
  | arrays (items : List Text)
  | table (name : Text)
  | subquery (body : List Token)

/-- The source after the join phrase `t`. -/
def readSource (t : Token) (rest : Text) (ts : List Token) : Except Error (Start × List Token) :=
  if "array join".toList.isSuffixOf t.keyword then
    ((arrays rest {} ts).bind (someItems ("arrays after " ++ t.text) rest)).map fun p ↦
      (.arrays p.1, p.2)
  else
    (expectToken "join source" rest ts).bind fun p ↦
      if p.1.isOpenParen then (group rest p.2).map fun g ↦ (.subquery g.1, g.2)
      else if p.1.kind = .identifier || p.1.kind = .string || p.1.kind = .placeholder then
        (tableName rest (Fragment.pushToken p.1 {}) p.2).map fun n ↦ (.table n.1, n.2)
      else .error (.unexpected ("source after " ++ t.text) p.1.text (textOf p.2 ++ rest))

/-- Aliases, `USING` and `ON` of a join whose source was read. -/
def readTail (j : Join Query) (rest : Text) (ts : List Token) :
    Except Error (Join Query × List Token) :=
  (aliasWords rest ts).bind fun p ↦
    let j := { j with aliases := p.1.1 }
    match p.1.2 with
    | none => .ok (j, p.2)
    | some t =>
      if t.keyword = "using" then
        (usingColumns rest p.2).map fun p ↦ ({ j with columns := p.1 }, p.2)
      else
        ((conditions rest {} p.2).bind (someItems "join condition after ON" rest)).map fun p ↦
          ({ j with predicates := p.1 }, p.2)

theorem leaves_arrays (rest : Text) (f : Fragment) (ts : List Token) :
    LeavesAtMost ts.length (arrays rest f ts) := by
  fun_induction arrays rest f ts with
  | case1 => exact .atEnd (Nat.le_refl _)
  | case2 _ _ _ _ ih => exact ih.mono (Nat.le_succ _)
  | case3 => exact .ok (Nat.le_refl _)
  | case4 _ _ _ _ _ _ ih => exact ih.map.mono (Nat.le_succ _)
  | case5 _ _ _ _ _ _ _ ih => exact ih.mono (Nat.le_succ _)
  | case6 _ _ _ _ _ _ _ ih => exact ih.mono (Nat.le_succ _)

theorem leaves_conditions (rest : Text) (f : Fragment) (ts : List Token) :
    LeavesAtMost ts.length (conditions rest f ts) := by
  fun_induction conditions rest f ts with
  | case1 => exact .atEnd (Nat.le_refl _)
  | case2 _ _ _ _ ih => exact ih.mono (Nat.le_succ _)
  | case3 => exact .ok (Nat.le_refl _)
  | case4 _ _ _ _ _ _ ih => exact ih.map.mono (Nat.le_succ _)
  | case5 _ _ _ _ _ _ _ ih => exact ih.mono (Nat.le_succ _)
  | case6 _ _ _ _ _ _ _ ih => exact ih.mono (Nat.le_succ _)

theorem leaves_tableName (rest : Text) (f : Fragment) (ts : List Token) :
    LeavesAtMost ts.length (tableName rest f ts) := by
  fun_induction tableName rest f ts with
  | case1 => exact .atEnd (Nat.le_refl _)
  | case2 _ _ _ _ ih => exact ih.mono (Nat.le_succ _)
  | case3 _ _ _ _ _ ih => exact ih.mono (Nat.le_succ _)
  | case4 => exact .error
  | case5 _ t ts _ _ _ body us h ih =>
    have := group_length h
    exact ih.mono (by simp only [List.length_cons]; omega)
  | case6 => exact .ok (Nat.le_refl _)

theorem leaves_aliasWords (rest : Text) (ts : List Token) :
    LeavesAtMost ts.length (aliasWords rest ts) := by
  fun_induction aliasWords rest ts with
  | case1 => exact .atEnd (Nat.le_refl _)
  | case2 _ _ _ ih => exact ih.mono (Nat.le_succ _)
  | case3 => exact .ok (Nat.le_succ _)
  | case4 => exact .ok (Nat.le_refl _)
  | case5 _ _ _ _ _ ih => exact ih.map.mono (Nat.le_succ _)

theorem leaves_columnNames (rest : Text) (ts : List Token) :
    LeavesAtMost ts.length (columnNames rest ts) := by
  fun_induction columnNames rest ts with
  | case1 => exact .atEnd (Nat.le_refl _)
  | case2 _ _ _ ih => exact ih.mono (Nat.le_succ _)
  | case3 _ _ _ _ ih => exact ih.map.mono (Nat.le_succ _)
  | case4 => exact .ok (Nat.le_refl _)

theorem leaves_usingColumns (rest : Text) (ts : List Token) :
    LeavesAtMost ts.length (usingColumns rest ts) := by
  intro q e
  rw [usingColumns] at e
  cases he : expectToken "USING columns" rest ts with
  | error => rw [he] at e; cases e
  | ok p =>
    have hp := expectToken_length he
    simp only [he, Except.bind] at e
    split at e
    · exact Nat.le_trans ((LeavesAtMost.group _ _).map q e) (Nat.le_of_lt hp)
    · exact Nat.le_trans (leaves_columnNames _ _ q e) hp

theorem leaves_someItems {n : Nat} {expected rest : Text} {p : List Text × List Token}
    (h : p.2.length ≤ n) : LeavesAtMost n (someItems expected rest p) := by
  rw [someItems]
  split
  · exact .error
  · exact .ok h

theorem leaves_readSource (t : Token) (rest : Text) (ts : List Token) :
    LeavesAtMost ts.length (readSource t rest ts) := by
  rw [readSource]
  split
  · exact .map ((leaves_arrays _ _ _).bind fun p hp ↦ leaves_someItems hp)
  · refine (LeavesAtMost.expectToken _ _ _).bind fun p hp ↦ ?_
    split
    · exact .map ((LeavesAtMost.group _ _).mono hp)
    · split
      · exact .map ((leaves_tableName _ _ _).mono hp)
      · exact .error

/-- A subquery is shorter than the tokens it was taken from. -/
theorem readSource_length {t : Token} {rest : Text} {ts us b : List Token}
    (h : readSource t rest ts = .ok (.subquery b, us)) : b.length < ts.length := by
  rw [readSource] at h
  split at h
  · cases he : (arrays rest {} ts).bind (someItems ("arrays after " ++ t.text) rest) <;>
      rw [he] at h <;> cases h
  · cases he : expectToken "join source" rest ts with
    | error => rw [he] at h; cases h
    | ok p =>
      have hp := expectToken_length he
      simp only [he, Except.bind] at h
      split at h
      · cases hg : group rest p.2 with
        | error => rw [hg] at h; cases h
        | ok g =>
          have := group_length hg
          rw [hg] at h
          cases h
          omega
      · split at h
        · cases hn : tableName rest (Fragment.pushToken p.1 {}) p.2 <;> rw [hn] at h <;> cases h
        · cases h

theorem leaves_readTail (j : Join Query) (rest : Text) (ts : List Token) :
    LeavesAtMost ts.length (readTail j rest ts) := by
  refine (leaves_aliasWords _ _).bind fun p hp ↦ ?_
  dsimp only
  split
  · exact .ok hp
  · split
    · exact .map ((leaves_usingColumns _ _).mono hp)
    · exact .map (((leaves_conditions _ _ _).mono hp).bind fun p hp ↦ leaves_someItems hp)

end Join
end QueryTemplate
