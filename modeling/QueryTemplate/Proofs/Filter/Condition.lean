import QueryTemplate.Proofs.Token.Keyword
import QueryTemplate.Proofs.Token.Depth
import QueryTemplate.Aggregation.TimeFilter
import QueryTemplate.Filter.Basic

namespace QueryTemplate

open Token Grammar

/-- A condition as the disjunction of conjunctions of predicates. A predicate is its tokens without
blanks and comments. -/
abbrev Formula := List (List (List Token))

namespace Formula

def holds (v : List Token → Bool) (f : Formula) : Bool := f.any (·.all v)

def isAnd (t : Token) : Bool := t.kind = .conjunction && t.keyword = "and"

def isOr (t : Token) : Bool := t.kind = .conjunction && t.keyword = "or"

/-- The tokens that carry meaning. -/
def codeOf (ts : List Token) : List Token := ts.filter fun t ↦ t.kind ≠ .blank && t.kind ≠ .comment

/-- The predicates between `AND` outside of all parentheses. -/
def conjuncts (ts : List Token) : List (List Token) := (splitOutside isAnd ts).map codeOf

/-- Reads a condition with `AND` binding tighter than `OR`. -/
def ofTokens (ts : List Token) : Formula := (splitOutside isOr ts).map conjuncts

/-- The tokens between the `WHERE` of a statement and its next clause keyword. -/
def whereTokens? (ts : List Token) : Option (List Token) :=
  (cutOutside (isClause "where") ts).map fun p ↦ (sections (·.kind = .clause) 0 p.2.2).lead

/-- The condition after `WHERE` in the text of a statement. -/
def ofStatement? (s : Text) : Option Formula :=
  match tokens? s with
  | .ok ts => (whereTokens? ts).map ofTokens
  | .error _ => none

/-- The predicates of `WHERE` joined with spaces; without any the condition is true. -/
def ofItems? (items : List Text) : Option Formula :=
  if items = [] then some [[]]
  else
    match tokens? (Text.join " " items) with
    | .ok ts => some (ofTokens ts)
    | .error _ => none

/-- A conjunct put in front of the first disjunct holds for the whole condition exactly when the
other disjuncts have it already. -/
theorem holds_cons_head (a : List Token) (d : List (List Token)) (f : Formula) :
    (∀ v, holds v ((a :: d) :: f) = (v a && holds v (d :: f))) ↔ ∀ e ∈ f, a ∈ e := by
  simp only [holds, List.any_cons, List.all_cons]
  constructor
  · intro h e he
    refine Decidable.byContradiction fun ha ↦ ?_
    have hv := h fun x ↦ e.contains x
    have hall : f.any (·.all fun x ↦ e.contains x) = true :=
      List.any_eq_true.2 ⟨e, he, List.all_eq_true.2 fun x hx ↦ by simpa using hx⟩
    simp only [hall, Bool.or_true] at hv
    simp [ha] at hv
  · intro h v
    cases ha : v a with
    | true => simp
    | false =>
      have hf : f.any (·.all v) = false := by
        refine Bool.eq_false_iff.2 fun hf ↦ ?_
        obtain ⟨e, he, hv⟩ := List.any_eq_true.1 hf
        rw [List.all_eq_true.1 hv a (h e he)] at ha
        cases ha
      simp [hf]

/-- Conjuncts put after the last disjunct hold for the whole condition exactly when the disjuncts
before it have them already. -/
theorem holds_append_last (f : Formula) (d as : List (List Token)) :
    (∀ v, holds v (f ++ [d ++ as]) = (holds v (f ++ [d]) && as.all v)) ↔
      ∀ e ∈ f, ∀ a ∈ as, a ∈ e := by
  simp only [holds, List.any_append, List.any_cons, List.any_nil, Bool.or_false, List.all_append]
  constructor
  · intro h e he a ha
    refine Decidable.byContradiction fun hne ↦ ?_
    have hv := h fun x ↦ e.contains x
    have hall : f.any (·.all fun x ↦ e.contains x) = true :=
      List.any_eq_true.2 ⟨e, he, List.all_eq_true.2 fun x hx ↦ by simpa using hx⟩
    simp only [hall, Bool.true_or, Bool.true_and] at hv
    have := List.all_eq_true.1 hv.symm a ha
    simp [hne] at this
  · intro h v
    cases ha : as.all v with
    | true => simp
    | false =>
      have hf : f.any (·.all v) = false := by
        refine Bool.eq_false_iff.2 fun hf ↦ ?_
        obtain ⟨e, he, hv⟩ := List.any_eq_true.1 hf
        have : as.all v = true := List.all_eq_true.2 fun a ha ↦
          List.all_eq_true.1 hv a (h e he a ha)
        rw [ha] at this
        cases this
      simp [hf]

end Formula
end QueryTemplate
