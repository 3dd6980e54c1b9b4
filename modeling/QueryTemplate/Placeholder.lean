import QueryTemplate.Token.Nesting
import QueryTemplate.Text.Word

namespace QueryTemplate

/-- Replaces each dollar sign with a whole word for which there is a value. -/
def substitute (value? : Text → Option Text) (s : Text) : Text :=
  match s with
  | [] => []
  | c :: s =>
    match if c = '$' then value? (s.takeWhile Text.isWord) else none with
    | some v => v ++ substitute value? (s.dropWhile Text.isWord)
    | none => c :: substitute value? s
termination_by s.length
decreasing_by
  · have := (List.dropWhile_suffix Text.isWord (l := s)).length_le
    simp only [List.length_cons]
    omega
  · simp

/-- Whether a dollar sign with the whole word `w` occurs, be it in a string or a comment. -/
def mentions (w : Text) : Text → Bool
  | [] => false
  | c :: s => (c = '$' && s.takeWhile Text.isWord = w) || mentions w s

/-- Replaces calls of the placeholder `name`, the first one first, `n` of them at most. -/
def replaceFirst (name : Text) (f : Text → Text) : Nat → Text → Except Error Text
  | 0, s => .ok s
  | n + 1, s =>
    (findCall s name).bind fun
      | none => .ok s
      | some c => replaceFirst name f n (c.before ++ f (Text.trim c.args) ++ c.after)

/-- Replaces all calls of the placeholder `name`. A value may hold the argument twice, and with it
the calls inside. -/
def replaceCalls (name : Text) (f : Text → Text) (s : Text) : Except Error Text :=
  replaceFirst name f (Nat.pow 2 (s.count '$')) s

end QueryTemplate
