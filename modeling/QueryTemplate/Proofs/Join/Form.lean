import QueryTemplate.Proofs.Query.Layout
import QueryTemplate.Proofs.Query.Regular
import QueryTemplate.Proofs.Token.Relaid
namespace QueryTemplate

open Token

/-- A keyword that ends an expression outside of parentheses. -/
def endsExpression (t : Token) : Bool := isBreak t || t.kind = .joinConstraint

/-- Parentheses close, and outside of them stands no keyword of a clause or of a join. -/
def IsPhrase (ts : List Token) : Prop := Balanced ts ∧ Covered endsExpression 0 ts

def IsExpression (ts : List Token) : Prop := ts ≠ [] ∧ IsPhrase ts

/-- An expression that is no list. -/
def IsEntry (ts : List Token) : Prop := IsExpression ts ∧ Covered isComma 0 ts

instance (ts : List Token) : Decidable (IsPhrase ts) := inferInstanceAs (Decidable (_ ∧ _))

instance (ts : List Token) : Decidable (IsExpression ts) := inferInstanceAs (Decidable (_ ∧ _))

instance (ts : List Token) : Decidable (IsEntry ts) := inferInstanceAs (Decidable (_ ∧ _))

def point : Token := ⟨.operator, ['.']⟩

/-- Tokens with `sep` between neighbours. -/
def chain (sep : Token) (t : Token) (ts : List Token) : List Token :=
  t :: ts.flatMap fun u ↦ [sep, u]

/-- Expressions with a comma between neighbours. -/
def IsList (ts : List Token) : Prop :=
  ∃ x xs, ts = x ++ xs.flatMap (comma :: ·) ∧ ∀ y ∈ x :: xs, IsEntry y

/-- The name of a table: identifiers or quoted names with points between them. -/
def IsName (ts : List Token) : Prop :=
  ∃ t us, ts = chain point t us ∧ ∀ u ∈ t :: us, u.kind = .identifier ∨ u.kind = .string

/-- An identifier, perhaps after `AS`, or nothing. -/
inductive IsAlias : List Token → Prop
  | none : IsAlias []
  | bare {t : Token} (ht : t.kind = .identifier) : IsAlias [t]
  | named {a t : Token} (ha : a.kind = .identifier ∧ a.keyword = "as") (ht : t.kind = .identifier) :
    IsAlias [a, t]

def IsColumns (ts : List Token) : Prop :=
  ∃ t us, ts = chain comma t us ∧ ∀ u ∈ t :: us, u.kind = .identifier

/-- `USING` and columns, `ON` and a predicate, or nothing. -/
inductive IsConstraint : List Token → Prop
  | none : IsConstraint []
  | using {u o e : Token} {cs : List Token} (hu : u.kind = .joinConstraint ∧
      u.keyword = "using") (ho : o.isOpenParen = true)
    (hc : IsColumns cs) (he : e.isCloseParen = true) : IsConstraint (u :: o :: (cs ++ [e]))
  | on {u : Token} {ps : List Token} (hu : u.kind = .joinConstraint ∧
      u.keyword = "on") (hp : IsExpression ps) :
    IsConstraint (u :: ps)

/-- What follows the source of a join. -/
def IsTail (ts : List Token) : Prop := ∃ a b, ts = a ++ b ∧ IsAlias a ∧ IsConstraint b

/-- `WHERE` and predicates, or nothing. -/
inductive IsWhere : List Token → Prop
  | none : IsWhere []
  | some {t : Token} {ps : List Token} (ht : t.isClause "where" = true) (hp : IsPhrase ps) :
    IsWhere (t :: ps)

def isArrayJoin (t : Token) : Bool := "array join".toList.isSuffixOf t.keyword

mutual

/-- A query of `SELECT`, `FROM` with joins of the kinds `ks`, and perhaps `WHERE`. -/
inductive Joined : List Token → List Text → Prop
  | mk {s f : Token} {items name called joins filter : List Token} {ks : List Text}
      (hs : s.isClause "select" = true)
    (hi : IsList items) (hf : f.isClause "from" = true) (hn : IsName name) (ha : IsAlias called)
    (hj : Joins joins ks)
    (hw : IsWhere filter) : Joined (s :: (items ++ f :: (name ++ called ++ (joins ++ filter)))) ks

/-- Joins of the kinds `ks` one after another. -/
inductive Joins : List Token → List Text → Prop
  | nil : Joins [] []
  | arrays {t : Token} {items ts : List Token} {ks : List Text} (hk : t.kind =
      .join) (ht : isArrayJoin t = true)
    (hi : IsList items) (h : Joins ts ks) : Joins (t :: (items ++ ts)) (t.keyword :: ks)
  | table {t : Token} {name tail ts : List Token} {ks : List Text} (hk : t.kind =
      .join) (ht : isArrayJoin t = false)
    (hn : IsName name) (ha : IsTail tail) (h : Joins ts ks) :
    Joins (t :: (name ++ tail ++ ts)) (t.keyword :: ks)
  | subquery {t o e : Token} {body tail ts : List Token} {ks ls : List Text} (hk : t.kind =
      .join) (ht : isArrayJoin t = false)
    (ho : o.isOpenParen = true) (hb : Balanced body) (hq : Joined body ls)
    (he : e.isCloseParen = true) (ha : IsTail tail)
    (h : Joins ts ks) : Joins (t :: o :: (body ++ e :: (tail ++ ts))) (t.keyword :: ks)

end

end QueryTemplate
