import QueryTemplate.Variable.Reference
import QueryTemplate.Token.Nesting

namespace QueryTemplate

def conditionalName : Text := "$conditionalTest"

def unescapeName : Text := "$unescape"

/-- The argument of a conditional that the state of its variable selects. -/
def chooseBranch (vs : List Variable) (args : Text) : Except Error Text :=
  (splitArguments args).bind fun
    | [ifSet, reference] => choose ifSet [] reference
    | [ifSet, ifEmpty, reference] => choose ifSet ifEmpty reference
    | args => .error (.arity conditionalName "2 or 3" args)
where
  choose (ifSet ifEmpty reference : Text) : Except Error Text :=
    let name := Reference.nameOf reference
    match findVariable vs name with
    | some v => .ok (if v.isSet then ifSet else ifEmpty)
    | none => .error (.undefinedVariable name)

theorem chooseBranch_sublist {vs : List Variable} {args r : Text}
    (h : chooseBranch vs args = .ok r) : r.Sublist args := by
  have choose : ∀ {a b c : Text}, chooseBranch.choose vs a b c = .ok r → r = a ∨ r = b := by
    intro a b c h
    simp only [chooseBranch.choose] at h
    split at h
    · obtain rfl := Except.ok.inj h
      split <;> simp
    · cases h
  rw [chooseBranch] at h
  cases hs : splitArguments args with
  | error => rw [hs] at h; cases h
  | ok as =>
    rw [hs] at h
    simp only [Except.bind] at h
    have hsub := fun a ↦ sublist_of_mem_splitArguments (a := a) hs
    split at h
    · rcases choose h with rfl | rfl
      · exact hsub _ (by simp)
      · exact List.nil_sublist _
    · rcases choose h with rfl | rfl <;> exact hsub _ (by simp)
    · cases h

/-- Replaces conditionals, the first one first, each by the argument that it selects. -/
def resolveConditionals (vs : List Variable) (s : Text) : Except Error Text :=
  match _h : findCall s conditionalName with
  | .error e => .error e
  | .ok none => .ok s
  | .ok (some c) =>
    match _h : chooseBranch vs c.args with
    | .error e => .error e
    | .ok r => resolveConditionals vs (c.before ++ r ++ c.after)
termination_by s.length
decreasing_by
  have := findCall_length ‹findCall s conditionalName = _›
  have := (chooseBranch_sublist _h).length_le
  simp only [List.length_append]
  omega

/-- Replaces calls of `$unescape`, the first one first, each by its argument without single
quotes. -/
def unescape (s : Text) : Except Error Text :=
  match _h : findCall s unescapeName with
  | .error e => .error e
  | .ok none => .ok s
  | .ok (some c) => unescape (c.before ++ c.args.filter (· ≠ '\'') ++ c.after)
termination_by s.length
decreasing_by
  have := findCall_length _h
  have := List.length_filter_le (fun d : Char ↦ decide (d ≠ '\'')) c.args
  simp only [List.length_append]
  omega

end QueryTemplate
