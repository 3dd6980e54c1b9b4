import QueryTemplate.Compiler
import QueryTemplate.Proofs.Token.Lexed
namespace QueryTemplate

open Token

variable {s a b w v : Text} {f : Text → Option Text} {ts : List Token}

/-- What has no dollar sign is not replaced. -/
theorem substitute_append (h : '$' ∉ a) (s : Text) :
    substitute f (a ++ s) = a ++ substitute f s := by
  induction a with
  | nil => rfl
  | cons c a ih =>
    rw [List.mem_cons, not_or] at h
    rw [List.cons_append, substitute, if_neg (Ne.symm h.1), ih h.2]
    rfl

theorem substitute_free (h : '$' ∉ s) : substitute f s = s := by
  have := substitute_append (f := f) h []
  rwa [List.append_nil, substitute, List.append_nil] at this

/-- A dollar sign and a word are replaced by the value of the word. -/
theorem substitute_word (hw : ∀ c ∈ w, Text.isWord c = true) (hs : Text.Stops Text.isWord s) :
    substitute f ('$' :: (w ++ s)) = match f w with
      | some v => v ++ substitute f s
      | none => '$' :: substitute f (w ++ s) := by
  rw [substitute, if_pos rfl, Text.takeWhile_append_stops hw hs]
  cases f w with
  | some v => simp only [Text.dropWhile_append_stops hw hs]
  | none => rfl

/-- Tokens none of which names a call. -/
theorem findCall_eq_none {name : Text} (hl : Lexed ts) (h : ∀ t ∈ ts, t.text ≠ name) :
    findCall (textOf ts) name = .ok none := by
  have hdrop : ts.dropWhile (fun t : Token ↦ !(t.kind = .placeholder && t.text = name)) = [] := by
    clear hl
    induction ts with
    | nil => rfl
    | cons t ts ih =>
      obtain ⟨ht, hts⟩ := List.forall_mem_cons.1 h
      rw [List.dropWhile_cons_of_pos (by simp [ht]), ih hts]
  have hl : scan (textOf ts) = ⟨ts, []⟩ := hl
  simp only [findCall, hl, hdrop]
  rfl

theorem resolveConditionals_of_findCall {vs : List Variable}
    (h : findCall s conditionalName = .ok none) :
    resolveConditionals vs s = .ok s := by
  rw [resolveConditionals]
  split
  · simp_all
  · rfl
  · simp_all

theorem unescape_of_findCall (h : findCall s unescapeName = .ok none) : unescape s = .ok s := by
  rw [unescape]
  split
  · simp_all
  · rfl
  · simp_all

theorem replaceCalls_of_findCall {name : Text} {f : Text → Text} (h : findCall s name = .ok none) :
    replaceCalls name f s = .ok s := by
  rw [replaceCalls]
  cases Nat.pow 2 (s.count '$') with
  | zero => rfl
  | succ n => rw [replaceFirst, h]; rfl

/-- The placeholders that are called like functions. -/
def callNames : List Text := [unescapeName, "$timeFilterByColumn", "$timeFilter64ByColumn"]

/-- A text with its calls replaced. -/
def withoutCalls (s : Text) : Except Error Text :=
  (unescape s).bind fun s ↦ (replaceCalls "$timeFilterByColumn" Time.columnFilter s).bind fun s ↦
    replaceCalls "$timeFilter64ByColumn" Time.columnFilter64 s

theorem withoutCalls_textOf (hl : Lexed ts) (h : ∀ t ∈ ts, t.text ∉ callNames) :
    withoutCalls (textOf ts) = .ok (textOf ts) := by
  have hnone : ∀ name ∈ callNames, findCall (textOf ts) name = .ok none := fun name hn ↦
    findCall_eq_none hl fun t ht e ↦ h t ht (e ▸ hn)
  have hu := unescape_of_findCall (hnone _ (by decide))
  have h₁ := replaceCalls_of_findCall
    (f := Time.columnFilter) (hnone "$timeFilterByColumn" (by decide))
  have h₂ := replaceCalls_of_findCall
    (f := Time.columnFilter64) (hnone "$timeFilter64ByColumn" (by decide))
  simp only [withoutCalls, hu, h₁, h₂, Except.bind]

namespace Request

variable {r : Request} {adhoc : Text}

/-- The values of the placeholders are put into a text without calls. -/
def substituted (r : Request) (adhoc : Text) (m : Measures) (s : Text) : Text :=
  substitute (fun w ↦ (r.values m adhoc).lookup w) (substitute (fun w ↦ r.expressions.lookup w) s)

theorem substituted_free (h : '$' ∉ s) (m : Measures) : r.substituted adhoc m s = s := by
  simp only [substituted, substitute_free h]

theorem fill_eq (r : Request) (adhoc s : Text) :
    r.fill adhoc s = (withoutCalls s).bind fun s ↦ r.measures.map fun m ↦
      r.substituted adhoc m s := by
  simp only [fill, withoutCalls, substituted, bind, Except.bind]
  cases unescape s with
  | error => rfl
  | ok s =>
    simp only
    cases replaceCalls "$timeFilterByColumn" Time.columnFilter s with
    | error => rfl
    | ok s =>
      simp only
      cases replaceCalls "$timeFilter64ByColumn" Time.columnFilter64 s with
      | error => rfl
      | ok s => cases r.measures <;> rfl

end Request

end QueryTemplate
