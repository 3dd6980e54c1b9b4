import QueryTemplate.Proofs.Token.Quoted
import QueryTemplate.Proofs.Token.Locality
import QueryTemplate.Variable.Basic
namespace QueryTemplate

open Token Grammar

/-- The tokens of several literals with commas between them. -/
def literals (xs : List Text) : List Token := (xs.map fun x ↦ ⟨.string, Text.quote x⟩).intersperse comma

theorem literals_cons_cons (x y : Text) (xs : List Text) :
    literals (x :: y :: xs) = ⟨.string, Text.quote x⟩ :: comma :: literals (y :: xs) := rfl

theorem textOf_literals (xs : List Text) : textOf (literals xs) = Text.join [','] (xs.map Text.quote) := by
  induction xs with
  | nil => rfl
  | cons x xs ih =>
    cases xs with
    | nil => simp [literals, Text.join]
    | cons y xs =>
      rw [literals_cons_cons, textOf_cons, textOf_cons, ih]
      simp [Text.join, comma]

theorem isBlank_of_mem_literals {xs : List Text} : ∀ t ∈ literals xs, t.isBlank = false := by
  induction xs with
  | nil => nofun
  | cons x xs ih =>
    intro t ht
    cases xs with
    | nil =>
      obtain rfl := List.mem_singleton.1 ht
      rfl
    | cons y xs =>
      rw [literals_cons_cons, List.mem_cons, List.mem_cons] at ht
      rcases ht with rfl | rfl | ht
      · rfl
      · rfl
      · exact ih t ht

theorem head_literals (x : Text) (xs : List Text) : (textOf (literals (x :: xs))).head? = some '\'' := by
  cases xs <;> rfl

/-- Literals with commas between them are read one by one. -/
theorem lexed_literals (xs : List Text) : Lexed (literals xs) := by
  induction xs with
  | nil => exact lexed_nil
  | cons x xs ih =>
    cases xs with
    | nil => exact lexed_cons.2 ⟨munch_quote x (Text.stops_nil _), lexed_nil⟩
    | cons y xs =>
      have hcomma : Lexed (comma :: literals (y :: xs)) := by
        refine lexed_cons.2 ⟨munch_punctuation_iff.2 ⟨rfl, ?_⟩, ih⟩
        obtain ⟨u, hu⟩ := List.head?_eq_some_iff.1 (head_literals y xs)
        rw [hu]
        rfl
      rw [literals_cons_cons]
      exact lexed_cons.2 ⟨munch_quote x (by simp [comma]), hcomma⟩

theorem decode_literals (xs : List Text) :
    ((literals xs).filter (·.kind = .string)).map (fun t ↦ Text.unquote t.text) = xs.map some := by
  induction xs with
  | nil => rfl
  | cons x xs ih =>
    cases xs with
    | nil => simp [literals, Text.unquote_quote]
    | cons y xs =>
      rw [literals_cons_cons, List.filter_cons_of_pos rfl, List.filter_cons_of_neg (by decide), List.map_cons, ih,
        Text.unquote_quote]
      rfl

theorem map_kept_literals (k : Bool) (xs : List Text) : (kept k 0 (literals xs)).map Located.toToken = literals xs := by
  rw [map_kept, List.filter_eq_self]
  intro t ht
  simp [isBlank_of_mem_literals t ht]

namespace Variable

variable {v : Variable} {o : Text} {xs : List Text}

/-- An option that is no numeral has all values of a variable quoted. -/
theorem numericOptions_eq_false (ho : Value.text o ∈ v.options) (hn : Text.isNumeral o = false) (ha : o ≠ Value.allText) :
    v.numericOptions = false := by
  have hl : Value.text o ∈ v.listedOptions := by
    refine List.mem_filter.2 ⟨ho, ?_⟩
    simpa [Value.isAll] using ha
  refine Bool.eq_false_iff.2 fun h ↦ ?_
  have hnum := List.all_eq_true.1 h _ hl
  rw [Value.isNumeric, hn] at hnum
  cases hnum

theorem render_texts (hm : v.multi = true) (hi : v.includeAll = false) (hv : v.current = .list (xs.map .text))
    (ho : v.numericOptions = false) : v.render = Text.join [','] (xs.map Text.quote) := by
  have hesc : v.escape ∘ Value.text = Text.quote := by
    funext x
    simp [Variable.escape, ho, Value.escape]
  rw [render, hm, hi, hv]
  simp only [Bool.not_true, Bool.false_and, Bool.false_eq_true, if_false, escapeList, List.map_map, hesc]

end Variable

/-- A quoted text is one token, whatever follows it but a quote, and stands for the text. So a variable whose options
are not all numerals is written as one literal for each of its values, and these can be read back. -/
theorem quote_is_closed :
    (∀ (k : Bool) (s r : Text), r.head? ≠ some '\'' →
      (Cursor.start (Text.quote s ++ r) k).next = (.ok (some ⟨⟨.string, Text.quote s⟩, 0⟩), ⟨Text.quote s ++ r, r, k⟩) ∧
        Text.unquote (Text.quote s) = some s) ∧
    ∀ (k : Bool) (v : Variable) (o : Text) (xs : List Text), v.multi = true → v.includeAll = false →
      Value.text o ∈ v.options → Text.isNumeral o = false → o ≠ Value.allText → v.current = .list (xs.map .text) →
        ∃ ts, tokenize k v.render = .ok ts ∧
          ts.map Located.toToken = (xs.map fun x ↦ ⟨.string, Text.quote x⟩).intersperse ⟨.punctuation, [',']⟩ ∧
          (ts.filter (·.kind = .string)).map (fun t ↦ Text.unquote t.text) = xs.map some := by
  constructor
  · intro k s r hr
    have hstop : Text.Stops (· = '\'') r := fun c hc ↦ by
      have hne : c ≠ '\'' := fun e ↦ hr (e ▸ hc)
      simpa using hne
    have hnext := Cursor.next_take (c := Cursor.start (Text.quote s ++ r) k) (munch_quote s hstop) (by simp [Token.isBlank])
    refine ⟨?_, Text.unquote_quote s⟩
    rw [hnext]
    simp [Cursor.start, Cursor.position]
  · intro k v o xs hm hi ho hn ha hv
    have hrender := Variable.render_texts hm hi hv (Variable.numericOptions_eq_false ho hn ha)
    have hdecode : ∀ ts : List Located, (ts.filter (·.kind = .string)).map (fun t ↦ Text.unquote t.text) =
        ((ts.map Located.toToken).filter (·.kind = .string)).map (fun t ↦ Text.unquote t.text) := by
      intro ts
      rw [List.filter_map, List.map_map]
      rfl
    refine ⟨kept k 0 (literals xs), ?_, map_kept_literals k xs, ?_⟩
    · rw [hrender, ← textOf_literals, (lexed_literals xs).tokenize]
    · rw [hdecode, map_kept_literals]
      exact decode_literals xs

theorem quote_is_closed_backslash :
    (Cursor.start (Text.quote "a\\" ++ ", 1) OR (1") false).next =
        (.ok (some ⟨⟨.string, "'a\\\\'"⟩, 0⟩), ⟨"'a\\\\', 1) OR (1", ", 1) OR (1", false⟩) ∧
      ∃ ts, tokenize false (Variable.render ⟨"v", .query, .list [.text "1", .text "it's\\"], true, false,
          [.text "x"], none⟩) = .ok ts ∧
        ts.map Located.toToken = [⟨.string, "'1'"⟩, ⟨.punctuation, ","⟩, ⟨.string, "'it\\'s\\\\'"⟩] ∧
        (ts.filter (·.kind = .string)).map (fun t ↦ Text.unquote t.text) = [some "1".toList, some "it's\\".toList] :=
  ⟨(quote_is_closed.1 false "a\\" ", 1) OR (1" (by decide)).1,
    quote_is_closed.2 false _ "x" ["1", "it's\\"] rfl rfl (List.mem_singleton_self _) (by decide) (by decide) rfl⟩

end QueryTemplate
