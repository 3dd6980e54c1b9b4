import QueryTemplate.Proofs.Token.Family
import QueryTemplate.Text.Quoted
namespace QueryTemplate

open Token Grammar Recognizer

/-- A quoted text ends at the quote that was put after it. -/
theorem quotedRest_quote (s : Text) {r : Text} (hr : Text.Stops (· = '\'') r) :
    quotedRest '\'' true (s.flatMap (fun c ↦ if c = '\\' || c = '\'' then ['\\', c] else [c]) ++
      '\'' :: r) = some r := by
  induction s with
  | nil =>
    cases r with
    | nil => rfl
    | cons d r =>
      have hd : d ≠ '\'' := by simpa using hr d rfl
      simp [quotedRest, hd]
  | cons c s ih =>
    obtain ⟨d, u, hu⟩ : ∃ d u, s.flatMap (fun c ↦ if c = '\\' || c = '\'' then ['\\', c]
      else [c]) ++ '\'' :: r = d :: u :=
      List.exists_cons_of_ne_nil (by simp)
    rw [List.flatMap_cons, List.append_assoc]
    by_cases hc : (c = '\\' || c = '\'') = true
    · rw [if_pos hc]
      simpa [quotedRest] using ih
    · rw [if_neg hc]
      simp only [Bool.or_eq_true, decide_eq_true_eq, not_or] at hc
      rw [hu] at ih ⊢
      simpa [quotedRest, hc.1, hc.2] using ih

/-- A literal is one token, unless a quote comes right after it. -/
theorem munch_quote (s : Text) {r : Text} (hr : Text.Stops (· = '\'') r) :
    munch (Text.quote s ++ r) = some (⟨.string, Text.quote s⟩, r) := by
  have hfirst : quoted '\'' true (Text.quote s ++ r) = some r := by
    have htext : Text.quote s ++ r =
        '\'' :: (s.flatMap (fun c ↦ if c = '\\' || c = '\'' then ['\\', c] else [c]) ++ '\'' ::
            r) := by
      simp [Text.quote]
    rw [htext]
    exact quotedRest_quote s hr
  refine munch_string_iff.2 ?_
  simp only [string, oneOf, List.findSome?_cons, hfirst]

namespace Text

/-- A text in which a backslash stands for nothing and takes the next character as it is. -/
def unescaped : Text → Option Text
  | [] => some []
  | [c] => if c = '\\' then none else some [c]
  | c :: d :: s => if c = '\\' then (unescaped s).map (d :: ·)
      else (unescaped (d :: s)).map (c :: ·)

/-- The text that stands between single quotes. -/
def unquote : Text → Option Text
  | [] => none
  | c :: s => if c = '\'' ∧ s.getLast? = some '\'' then unescaped s.dropLast else none

theorem unescaped_cons {c : Char} (h : c ≠ '\\') (s : Text) :
    unescaped (c :: s) = (unescaped s).map (c :: ·) := by
  cases s with
  | nil => simp [unescaped, h]
  | cons d s => rw [unescaped, if_neg h]

theorem unescaped_escaped (s : Text) :
    unescaped (s.flatMap fun c ↦ if c = '\\' || c = '\'' then ['\\', c] else [c]) = some s := by
  induction s with
  | nil => rfl
  | cons c s ih =>
    rw [List.flatMap_cons]
    by_cases hc : (c = '\\' || c = '\'') = true
    · rw [if_pos hc]
      simp only [List.cons_append, List.nil_append, unescaped, if_true, ih, Option.map_some]
    · rw [if_neg hc]
      have hne : c ≠ '\\' := fun e ↦ hc (by simp [e])
      rw [List.singleton_append, unescaped_cons hne, ih, Option.map_some]

theorem unquote_quote (s : Text) : unquote (quote s) = some s := by
  have hlast : (s.flatMap (fun c ↦ if c = '\\' || c = '\'' then ['\\', c] else [c]) ++
    ['\'']).getLast? = some '\'' :=
    List.getLast?_concat
  have htext : quote s = '\'' ::
      (s.flatMap (fun c ↦ if c = '\\' || c = '\'' then ['\\', c] else [c]) ++ ['\'']) := rfl
  rw [htext, unquote, if_pos ⟨rfl, hlast⟩, List.dropLast_concat]
  exact unescaped_escaped s

end Text
end QueryTemplate
