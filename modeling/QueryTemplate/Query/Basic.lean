import QueryTemplate.Text.Basic

namespace QueryTemplate

/-- The clauses that are a list of fragments and nothing else. -/
inductive Slot
  /-- The definitions after `WITH`. -/
  | bindings
  | select
  /-- Alias and modifiers after a subquery in `FROM`. -/
  | aliases
  | prewhere
  /-- The predicates after `WHERE`. -/
  | condition
  | groupBy
  | having
  | orderBy
  | limit
  | format
  deriving DecidableEq, Repr

/-- What each slot holds: nothing if its keyword never appeared, and an empty list if it appeared
without items. -/
structure Slots where
  bindings : Option (List Text) := none
  select : Option (List Text) := none
  aliases : Option (List Text) := none
  prewhere : Option (List Text) := none
  condition : Option (List Text) := none
  groupBy : Option (List Text) := none
  having : Option (List Text) := none
  orderBy : Option (List Text) := none
  limit : Option (List Text) := none
  format : Option (List Text) := none
  deriving DecidableEq, Repr, Inhabited

namespace Slots

def get (x : Slots) : Slot → Option (List Text)
  | .bindings => x.bindings
  | .select => x.select
  | .aliases => x.aliases
  | .prewhere => x.prewhere
  | .condition => x.condition
  | .groupBy => x.groupBy
  | .having => x.having
  | .orderBy => x.orderBy
  | .limit => x.limit
  | .format => x.format

def set (x : Slots) (items : List Text) : Slot → Slots
  | .bindings => { x with bindings := some items }
  | .select => { x with select := some items }
  | .aliases => { x with aliases := some items }
  | .prewhere => { x with prewhere := some items }
  | .condition => { x with condition := some items }
  | .groupBy => { x with groupBy := some items }
  | .having => { x with having := some items }
  | .orderBy => { x with orderBy := some items }
  | .limit => { x with limit := some items }
  | .format => { x with format := some items }

@[simp] theorem get_set (x : Slots) (items : List Text) (s : Slot) :
    (x.set items s).get s = some items := by cases s <;> rfl

theorem get_set_of_ne (x : Slots) (items : List Text) {s r : Slot} (h : r ≠ s) :
    (x.set items s).get r = x.get r := by cases s <;> cases r <;> simp_all [set, get]

end Slots

/-- Where the rows of `FROM` or of a join come from. -/
inductive Source (q : Type)
  /-- Table references, table functions and their modifiers. -/
  | table (items : List Text)
  | subquery (query : q)
  deriving DecidableEq, Inhabited

structure Join (q : Type) where
  /-- The join phrase in lower case, such as `any left join`. -/
  kind : Text
  source : Source q := .table []
  aliases : List Text := []
  /-- The columns after `USING`. -/
  columns : List Text := []
  /-- The predicates after `ON`; each one after the first starts with `AND` or `OR`. -/
  predicates : List Text := []
  deriving DecidableEq, Inhabited

/-- The arguments of an aggregation macro: expressions, or a whole statement. -/
inductive CallArgs (q : Type)
  | list (items : List Text)
  | statement (query : q)
  deriving DecidableEq, Inhabited

/-- The clauses of a query at one level of nesting. -/
structure Query where
  /-- Comments and expressions before the first clause keyword. -/
  root : List Text := []
  /-- The aggregation macros in the order of their names. -/
  calls : List (Text × CallArgs Query) := []
  slots : Slots := {}
  source : Option (Source Query) := none
  joins : List (Join Query) := []
  /-- The statements after the first `UNION ALL`. -/
  unions : Option (List Query) := none
  deriving Inhabited

namespace Query

/-- Decides one equation by another one. -/
private def decideBy {a b : Prop} (h : b ↔ a) (d : Decidable a) : Decidable b :=
  decidable_of_decidable_of_iff h.symm

mutual

protected def decEq : (a b : Query) → Decidable (a = b)
  | ⟨r, c, s, f, j, u⟩, ⟨r', c', s', f', j', u'⟩ =>
    decideBy (a := r = r' ∧ c = c' ∧ s = s' ∧ f = f' ∧ j = j' ∧ u = u') (by simp)
      (@instDecidableAnd _ _ inferInstance <| @instDecidableAnd _ _ (Query.decEqCalls c c') <|
        @instDecidableAnd _ _ inferInstance <| @instDecidableAnd _ _ (Query.decEqSource? f f') <|
        @instDecidableAnd _ _ (Query.decEqJoins j j') (Query.decEqUnions u u'))

protected def decEqCalls : (a b : List (Text × CallArgs Query)) → Decidable (a = b)
  | [], [] => isTrue rfl
  | [], _ :: _ => isFalse (by simp)
  | _ :: _, [] => isFalse (by simp)
  | (n, x) :: a, (m, y) :: b =>
    decideBy (a := n = m ∧ x = y ∧ a = b) (by simp [and_assoc])
      (@instDecidableAnd _ _ inferInstance <|
        @instDecidableAnd _ _ (Query.decEqArgs x y) (Query.decEqCalls a b))

protected def decEqArgs : (a b : CallArgs Query) → Decidable (a = b)
  | .list x, .list y => decideBy (a := x = y) (by simp) inferInstance
  | .statement x, .statement y => decideBy (a := x = y) (by simp) (Query.decEq x y)
  | .list _, .statement _ => isFalse (by simp)
  | .statement _, .list _ => isFalse (by simp)

protected def decEqSource : (a b : Source Query) → Decidable (a = b)
  | .table x, .table y => decideBy (a := x = y) (by simp) inferInstance
  | .subquery x, .subquery y => decideBy (a := x = y) (by simp) (Query.decEq x y)
  | .table _, .subquery _ => isFalse (by simp)
  | .subquery _, .table _ => isFalse (by simp)

protected def decEqSource? : (a b : Option (Source Query)) → Decidable (a = b)
  | none, none => isTrue rfl
  | none, some _ => isFalse (by simp)
  | some _, none => isFalse (by simp)
  | some x, some y => decideBy (a := x = y) (by simp) (Query.decEqSource x y)

protected def decEqJoins : (a b : List (Join Query)) → Decidable (a = b)
  | [], [] => isTrue rfl
  | [], _ :: _ => isFalse (by simp)
  | _ :: _, [] => isFalse (by simp)
  | ⟨k, s, l, u, o⟩ :: a, ⟨k', s', l', u', o'⟩ :: b =>
    decideBy (a := (k = k' ∧ l = l' ∧ u = u' ∧ o = o') ∧ s = s' ∧ a = b) (by simp; grind)
      (@instDecidableAnd _ _ inferInstance <|
        @instDecidableAnd _ _ (Query.decEqSource s s') (Query.decEqJoins a b))

protected def decEqList : (a b : List Query) → Decidable (a = b)
  | [], [] => isTrue rfl
  | [], _ :: _ => isFalse (by simp)
  | _ :: _, [] => isFalse (by simp)
  | x :: a, y :: b =>
    decideBy (a := x = y ∧ a = b) (by simp)
      (@instDecidableAnd _ _ (Query.decEq x y) (Query.decEqList a b))

protected def decEqUnions : (a b : Option (List Query)) → Decidable (a = b)
  | none, none => isTrue rfl
  | none, some _ => isFalse (by simp)
  | some _, none => isFalse (by simp)
  | some x, some y => decideBy (a := x = y) (by simp) (Query.decEqList x y)

end

instance : DecidableEq Query := Query.decEq

end Query
end QueryTemplate
