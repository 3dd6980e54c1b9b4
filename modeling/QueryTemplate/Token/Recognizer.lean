import QueryTemplate.Token.Basic

namespace QueryTemplate


/-- A recognizer answers what follows its match at the start of a text. Choices are ordered and
never taken back: what follows a choice does not make it try another branch. -/
abbrev Recognizer := Text → Option Text

namespace Recognizer

def seq (a b : Recognizer) : Recognizer := fun s ↦ (a s).bind b

def oneOf (rs : List Recognizer) : Recognizer := fun s ↦ rs.findSome? (· s)

/-- Matches `a` if it can, and nothing otherwise. -/
def maybe (a : Recognizer) : Recognizer := fun s ↦ some ((a s).getD s)

/-- Matches nothing, and only where `a` does not match. -/
def notAhead (a : Recognizer) : Recognizer := fun s ↦ if (a s).isSome then none else some s

/-- One character of the class `p`. -/
def one (p : Char → Bool) : Recognizer
  | [] => none
  | c :: s => if p c then some s else none

/-- Any number of characters of the class `p`. -/
def many (p : Char → Bool) : Recognizer := fun s ↦ some (s.dropWhile p)

def many1 (p : Char → Bool) : Recognizer := (one p).seq (many p)

/-- The text `w` itself. -/
def exactly (w : Text) : Recognizer := Text.afterPrefix? w

/-- The lower-case word `w` in either case. -/
def word : Text → Recognizer
  | [], s => some s
  | _ :: _, [] => none
  | c :: w, d :: s => if d.toLower = c then word w s else none

def gap : Recognizer := many1 Text.isBlank

/-- Words with blanks between them. -/
def phrase : List Text → Recognizer
  | [] => some
  | [w] => word w
  | w :: ws => (word w).seq (gap.seq (phrase ws))

/-- Matches nothing, and only where no name goes on. -/
def boundary : Recognizer := notAhead (one Text.isNameChar)

/-- What is left after a match is the end of the text. -/
structure Splits (a : Recognizer) : Prop where
  suffix : ∀ {s t}, a s = some t → t <:+ s

/-- A match takes at least one character. -/
structure Consumes (a : Recognizer) : Prop extends Splits a where
  shorter : ∀ {s t}, a s = some t → t.length < s.length

theorem Splits.seq {a b : Recognizer} (ha : Splits a) (hb : Splits b) : Splits (a.seq b) where
  suffix h := by
    obtain ⟨u, hu, ht⟩ := Option.bind_eq_some_iff.1 h
    exact (hb.suffix ht).trans (ha.suffix hu)

theorem Consumes.seq {a b : Recognizer} (ha : Consumes a) (hb : Splits b) :
    Consumes (a.seq b) where
  toSplits := ha.toSplits.seq hb
  shorter h := by
    obtain ⟨u, hu, ht⟩ := Option.bind_eq_some_iff.1 h
    exact Nat.lt_of_le_of_lt (hb.suffix ht).length_le (ha.shorter hu)

theorem Splits.seq_consumes {a b : Recognizer} (ha : Splits a) (hb : Consumes b) :
    Consumes (a.seq b) where
  toSplits := ha.seq hb.toSplits
  shorter h := by
    obtain ⟨u, hu, ht⟩ := Option.bind_eq_some_iff.1 h
    exact Nat.lt_of_lt_of_le (hb.shorter ht) (ha.suffix hu).length_le

theorem Consumes.oneOf {rs : List Recognizer} (h : ∀ r ∈ rs, Consumes r) :
    Consumes (oneOf rs) where
  suffix e := by
    obtain ⟨r, hr, hs⟩ := List.exists_of_findSome?_eq_some e
    exact (h r hr).suffix hs
  shorter e := by
    obtain ⟨r, hr, hs⟩ := List.exists_of_findSome?_eq_some e
    exact (h r hr).shorter hs

theorem Splits.maybe {a : Recognizer} (h : Splits a) : Splits (maybe a) where
  suffix {s t} e := by
    obtain rfl := Option.some.inj e
    cases hs : a s with
    | none => exact List.suffix_rfl
    | some u => exact h.suffix hs

theorem Splits.notAhead (a : Recognizer) : Splits (notAhead a) where
  suffix e := by
    simp only [Recognizer.notAhead] at e
    split at e
    · cases e
    · exact Option.some.inj e ▸ List.suffix_rfl

theorem Consumes.one (p : Char → Bool) : Consumes (one p) := by
  have h : ∀ {s t}, Recognizer.one p s = some t → ∃ c, s = c :: t := by
    intro s t e
    cases s with
    | nil => cases e
    | cons c s =>
      simp only [Recognizer.one] at e
      split at e
      · exact ⟨c, Option.some.inj e ▸ rfl⟩
      · cases e
  refine ⟨⟨fun e ↦ ?_⟩, fun e ↦ ?_⟩ <;> obtain ⟨c, rfl⟩ := h e
  · exact List.suffix_cons _ _
  · exact Nat.lt_succ_self _

theorem Splits.many (p : Char → Bool) : Splits (many p) where
  suffix e := Option.some.inj e ▸ List.dropWhile_suffix _

theorem Consumes.many1 (p : Char → Bool) : Consumes (many1 p) := (Consumes.one p).seq (.many p)

theorem Consumes.exactly {w : Text} (h : w ≠ []) : Consumes (exactly w) where
  suffix e := Text.afterPrefix?_eq_some_iff.1 e ▸ List.suffix_append _ _
  shorter {s t} e := by
    have := List.length_pos_iff.2 h
    rw [Text.afterPrefix?_eq_some_iff.1 e, List.length_append]
    omega

theorem Splits.word (w : Text) : Splits (word w) where
  suffix {s t} e := by
    induction w generalizing s with
    | nil => exact Option.some.inj e ▸ List.suffix_rfl
    | cons c w ih =>
      cases s with
      | nil => cases e
      | cons d s =>
        simp only [Recognizer.word] at e
        split at e
        · exact (ih e).trans (List.suffix_cons _ _)
        · cases e

theorem Consumes.word {w : Text} (h : w ≠ []) : Consumes (word w) where
  toSplits := .word w
  shorter {s t} e := by
    cases w with
    | nil => exact absurd rfl h
    | cons c w =>
      cases s with
      | nil => cases e
      | cons d s =>
        simp only [Recognizer.word] at e
        split at e
        · exact Nat.lt_succ_of_le ((Splits.word w).suffix e).length_le
        · cases e

theorem Consumes.gap : Consumes gap := .many1 _

theorem Splits.phrase (ws : List Text) : Splits (phrase ws) := by
  induction ws with
  | nil => exact ⟨fun e ↦ Option.some.inj e ▸ List.suffix_rfl⟩
  | cons w ws ih =>
    cases ws with
    | nil => exact .word w
    | cons v ws => exact (Splits.word w).seq (Consumes.gap.toSplits.seq ih)

theorem Consumes.phrase {ws : List Text} (h : ∃ w ∈ ws.head?, w ≠ []) : Consumes (phrase ws) := by
  cases ws with
  | nil => simp at h
  | cons w ws =>
    have hw : w ≠ [] := by simpa using h
    cases ws with
    | nil => exact .word hw
    | cons v ws => exact (Consumes.word hw).seq (Consumes.gap.toSplits.seq (.phrase _))

theorem Splits.boundary : Splits boundary := .notAhead _

theorem Consumes.phrases {ps : List (List Text)} (h : ∀ p ∈ ps, ∃ w ∈ p.head?, w ≠ []) :
    Consumes (Recognizer.oneOf (ps.map Recognizer.phrase)) := by
  refine .oneOf fun r hr ↦ ?_
  obtain ⟨p, hp, rfl⟩ := List.mem_map.1 hr
  exact .phrase (h p hp)

theorem Consumes.texts {ws : List Text} (h : ∀ w ∈ ws, w ≠ []) :
    Consumes (Recognizer.oneOf (ws.map Recognizer.exactly)) := by
  refine .oneOf fun r hr ↦ ?_
  obtain ⟨w, hw, rfl⟩ := List.mem_map.1 hr
  exact .exactly (h w hw)

end Recognizer
end QueryTemplate
