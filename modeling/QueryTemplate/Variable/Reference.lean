import QueryTemplate.Variable.Basic
import QueryTemplate.Text.Word

namespace QueryTemplate

/-- A reference to a variable, as `$name`, `${name}`, `${name:format}` or the same in double
brackets. -/
structure Reference where
  name : Text
  format : Option Text := none
  deriving DecidableEq, Repr

namespace Reference

/-- A word at the start of a text and what follows it. -/
def word? (s : Text) : Option (Text × Text) :=
  let w := s.takeWhile Text.isWord
  if w = [] then none else some (w, s.dropWhile Text.isWord)

/-- A name, perhaps a colon and a format, between two texts. -/
def between? (opening closing s : Text) : Option (Reference × Text) := do
  let s ← Text.afterPrefix? opening s
  let (name, s) ← word? s
  match s with
  | ':' :: s =>
    let (format, s) ← word? s
    return (⟨name, some format⟩, ← Text.afterPrefix? closing s)
  | s => return (⟨name, none⟩, ← Text.afterPrefix? closing s)

def bare? (s : Text) : Option (Reference × Text) := do
  let s ← Text.afterPrefix? "$" s
  let (name, s) ← word? s
  return (⟨name, none⟩, s)

/-- The reference at the start of a text and what follows it. -/
def read? (s : Text) : Option (Reference × Text) :=
  (between? "$\x7b" "\x7d" s).or ((between? "[[" "]]" s).or (bare? s))

/-- What a reference stands for, if there is such a variable. -/
def value? (vs : List Variable) (r : Reference) : Option Text :=
  (findVariable vs r.name).map fun v ↦
    if r.format = some "raw".toList || r.format = some "csv".toList then v.current.raw
    else v.render

/-- The name in a reference of any form, or a text that is none. -/
def nameOf (s : Text) : Text :=
  let s := Text.trim s
  let inside := fun (opening closing : Text) ↦
    (Text.afterPrefix? opening s).bind fun t ↦
      if closing.isSuffixOf t then some (t.take (t.length - closing.length)) else none
  let name := (inside "$\x7b" "\x7d" <|> inside "[[" "]]").getD
    ((Text.afterPrefix? "$" s).getD s)
  name.takeWhile (· ≠ ':')

theorem word?_length {s w r : Text} (h : word? s = some (w, r)) : r.length ≤ s.length := by
  simp only [word?] at h
  split at h
  · cases h
  · obtain ⟨-, rfl⟩ := Prod.mk.inj (Option.some.inj h)
    exact (List.dropWhile_suffix Text.isWord).length_le

theorem afterPrefix?_length {p s r : Text} (h : Text.afterPrefix? p s = some r) :
    r.length + p.length = s.length := by
  rw [Text.afterPrefix?_eq_some_iff.1 h, List.length_append, Nat.add_comm]

theorem between?_length {opening closing s t : Text} {r : Reference}
    (h : between? opening closing s = some (r, t)) (ho : opening ≠ []) : t.length < s.length := by
  simp only [between?, bind, Option.bind_eq_some_iff] at h
  obtain ⟨u, hu, ⟨name, v⟩, hv, h⟩ := h
  have hl := List.length_pos_iff.2 ho
  have hu := afterPrefix?_length hu
  have hv := word?_length hv
  split at h
  · rename_i e
    simp only [Option.bind_eq_some_iff] at h
    obtain ⟨⟨format, w⟩, hw, x, hx, h⟩ := h
    obtain ⟨-, rfl⟩ := Prod.mk.inj (Option.some.inj h)
    have hw := word?_length hw
    have hx := afterPrefix?_length hx
    have e := congrArg List.length e
    simp only [List.length_cons] at e hx
    omega
  · simp only [Option.bind_eq_some_iff] at h
    obtain ⟨x, hx, h⟩ := h
    obtain ⟨-, rfl⟩ := Prod.mk.inj (Option.some.inj h)
    have hx := afterPrefix?_length hx
    omega

theorem bare?_length {s t : Text} {r : Reference} (h : bare? s = some (r, t)) :
    t.length < s.length := by
  simp only [bare?, bind, Option.bind_eq_some_iff] at h
  obtain ⟨u, hu, ⟨name, v⟩, hv, h⟩ := h
  obtain ⟨-, rfl⟩ := Prod.mk.inj (Option.some.inj h)
  have hu := afterPrefix?_length hu
  have hv := word?_length hv
  simp only [String.reduceToList, List.length_cons, List.length_nil] at hu ⊢
  omega

theorem read?_length {s t : Text} {r : Reference} (h : read? s = some (r, t)) :
    t.length < s.length := by
  simp only [read?, Option.or_eq_some_iff] at h
  rcases h with h | ⟨-, h | ⟨-, h⟩⟩
  · exact between?_length h (by simp)
  · exact between?_length h (by simp)
  · exact bare?_length h

end Reference

/-- Replaces references by the values of their variables; unknown names stay. -/
def interpolate (vs : List Variable) (s : Text) : Text :=
  match s with
  | [] => []
  | c :: s =>
    match _h : Reference.read? (c :: s) with
    | some (r, t) =>
      (r.value? vs).getD ((c :: s).take ((c :: s).length - t.length)) ++ interpolate vs t
    | none => c :: interpolate vs s
termination_by s.length
decreasing_by
  · exact Reference.read?_length _h
  · simp

end QueryTemplate
