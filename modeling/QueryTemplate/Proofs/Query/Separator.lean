import QueryTemplate.Proofs.Query.ItemText
namespace QueryTemplate

open Token Fragment Grammar Formula Query

/-- How an expression ends in line comments, with what stands before them. -/
inductive LineEnding
  | code
  | one (i : List Token) (t : Token)
  | two (j : List Token) (c t : Token)

def lineEnding (l : List Token) : LineEnding :=
  match l.reverse with
  | [] => .code
  | [t] => if t.isLineComment then .one [] t else .code
  | t :: c :: j =>
    if t.isLineComment then if c.isLineComment then .two j.reverse c t else .one (c :: j).reverse t
      else .code

/-- A line comment that a separator and another line comment came into. -/
def fuse (sep : List Token) (c t : Token) : Token :=
  ⟨.comment, c.trimmed.text ++ textOf sep ++ ' ' :: t.trimmed.text⟩

/-- The tokens of an expression, after the token `p`, with a separator after it. -/
def punctuated (p : Option Token) (sep l : List Token) : List Token :=
  match lineEnding l with
  | .code => bare p l ++ sep
  | .one i t => bare p i ++ sep ++ [space, t.trimmed]
  | .two j c t => bare p (j ++ [fuse sep c t])

section

variable {l i j : List Token} {c t u : Token} {p : Option Token}

theorem lineEnding_code (h : lineEnding l = .code) : l.getLast?.any isLineComment = false := by
  obtain ⟨r, rfl⟩ : ∃ r, l = r.reverse := ⟨l.reverse, l.reverse_reverse.symm⟩
  rw [lineEnding, List.reverse_reverse] at h
  split at h
  · rfl
  · split at h
    · cases h
    · rename_i ht
      simpa using ht
  · split at h
    · split at h <;> cases h
    · rename_i ht
      simpa using ht

theorem lineEnding_one (h : lineEnding l = .one i t) : l = i ++ [t] ∧ t.isLineComment = true ∧
    i.getLast?.any isLineComment = false := by
  obtain ⟨r, rfl⟩ : ∃ r, l = r.reverse := ⟨l.reverse, l.reverse_reverse.symm⟩
  rw [lineEnding, List.reverse_reverse] at h
  split at h
  · cases h
  · split at h
    · obtain ⟨rfl, rfl⟩ := LineEnding.one.inj h
      exact ⟨rfl, ‹_›, rfl⟩
    · cases h
  · split at h
    · split at h
      · cases h
      · rename_i hc
        obtain ⟨rfl, rfl⟩ := LineEnding.one.inj h
        exact ⟨by simp, ‹_›, by simpa using hc⟩
    · cases h

theorem lineEnding_two (h : lineEnding l = .two j c t) :
    l = j ++ [c] ++ [t] ∧ c.isLineComment = true ∧
    t.isLineComment = true := by
  obtain ⟨r, rfl⟩ : ∃ r, l = r.reverse := ⟨l.reverse, l.reverse_reverse.symm⟩
  rw [lineEnding, List.reverse_reverse] at h
  split at h
  · cases h
  · split at h <;> cases h
  · split at h
    · split at h
      · obtain ⟨rfl, rfl, rfl⟩ := LineEnding.two.inj h
        exact ⟨by simp, ‹_›, ‹_›⟩
      · cases h
    · cases h

theorem lineEnding_concat (hc : c.isLineComment = true) (ht : t.isLineComment = true) :
    lineEnding (j ++ [c, t]) = .two j c t := by
  simp [lineEnding, hc, ht]

theorem kind_of_isLineComment (h : t.isLineComment = true) : t.kind = .comment := by
  simp only [isLineComment, Bool.and_eq_true, decide_eq_true_eq] at h
  exact h.1

/-- Before its last token an expression is spaced as it is put together. -/
theorem bare_concat (p : Option Token) (i : List Token) (t : Token) :
    bare p (i ++ [t]) = spaced p i ++ (gapAfter (i.getLast?.or p) t ++ [t.trimmed]) := by
  induction i generalizing p with
  | nil => rfl
  | cons u i ih =>
    have hb : bare p (u :: i ++ [t]) =
        gapAfter p u ++ u :: (lineEnd u ++ bare (some u) (i ++ [t])) := by
      cases i <;> rfl
    have hor : ((u :: i).getLast?).or p = i.getLast?.or (some u) := by
      cases i with
      | nil => rfl
      | cons v i => rw [List.getLast?_cons_cons, List.getLast?_cons, Option.some_or, Option.some_or]
    rw [hb, ih, spaced, hor]
    simp

theorem Inline.left {a b : List Token} (h : Inline (a ++ b)) : Inline a := by
  refine ⟨fun t ht ↦ h.alone t (List.mem_append_left _ ht),
    fun t ht ↦ h.kinds t (List.mem_append_left _ ht),
    fun t ht ↦ h.bang t (List.mem_append_left _ ht), ?_⟩
  have ha := h.abutting
  clear h
  induction a with
  | nil => trivial
  | cons t a ih =>
    cases a with
    | nil => trivial
    | cons u a => exact ⟨ha.1, ih ha.2⟩

theorem Inline.trimEnd_bare (h : Inline l) (hne : l ≠ []) :
    Text.trimEnd (textOf (bare none l)) = textOf (bare none l) := by
  rw [← h.trimEnd_spaced hne, trimEnd_trimEnd]

theorem Inline.trimEnd_itemText (h : Inline l) (hne : l ≠ []) :
    Text.trimEnd (itemText l) = textOf (bare none l) := by
  rw [itemText, trimEnd_append_spaces, h.trimEnd_bare hne]
  split
  · decide
  · exact fun c hc ↦ by cases hc

theorem follows_nil (l : List Token) : Follows l [] :=
  ⟨lexed_nil, sealed_nil, fun _ _ _ ↦ rfl, fun _ _ _ ↦ Text.stops_nil _⟩

theorem Inline.scan_bare (h : Inline l) : scan (textOf (bare none l)) = ⟨bare none l, []⟩ := by
  have := h.lexed_bare (p := none) (follows_nil l)
  rwa [List.append_nil] at this

theorem lastToken?_concat (ts : List Token) (ht : t.isBlank = false) :
    lastToken? (ts ++ [t]) = some (ts, t) := by
  rw [lastToken?, List.reverse_append, List.reverse_singleton, List.singleton_append,
    List.dropWhile_cons_of_neg (by simp [ht])]
  simp

theorem Inline.lastToken?_bare (h : Inline (i ++ [t])) :
    lastToken? (bare none (i ++ [t])) =
      some (spaced none i ++ gapAfter (i.getLast?.or none) t, t.trimmed) := by
  have hb : t.trimmed.isBlank = false := h.isBlank_eq_false (t := t) (by simp)
  rw [bare_concat, ← List.append_assoc, lastToken?_concat _ hb]

theorem withSeparator_code (h : Inline l) (hne : l ≠ []) (hl : l.getLast?.any isLineComment = false)
    (sep : Text) :
    withSeparator sep (itemText l) = textOf (bare none l) ++ sep := by
  obtain ⟨i, t, rfl⟩ : ∃ i t, l = i ++ [t] := ⟨_, _, (List.dropLast_concat_getLast hne).symm⟩
  have ht : t.trimmed.isLineComment = false := by
    rw [isLineComment_trimmed (h.alone t (List.mem_append_right _ List.mem_cons_self))]
    simpa using hl
  simp only [withSeparator, h.trimEnd_itemText hne, h.scan_bare, h.lastToken?_bare, ht]
  rfl

/-- A separator is put before a line comment. -/
theorem withSeparator_line (h : Inline (i ++ [t])) (hne : i ≠ []) (ht : t.isLineComment = true)
    (sep : Text) :
    withSeparator sep (itemText (i ++ [t])) =
      textOf (bare none i) ++ sep ++ ' ' :: t.trimmed.text := by
  have htr : t.trimmed.isLineComment = true := by
    rwa [isLineComment_trimmed (h.alone t (List.mem_append_right _ List.mem_cons_self))]
  have hgap : ∀ c ∈ textOf (gapAfter (i.getLast?.or none) t), Text.isSpace c = true := by
    rcases gapAfter_eq (i.getLast?.or none) t with e | e <;> rw [e] <;> decide
  simp only [withSeparator, h.trimEnd_itemText (by simp), h.scan_bare, h.lastToken?_bare, htr,
    if_true]
  rw [textOf_append, trimEnd_append_spaces hgap, h.left.trimEnd_spaced hne]

theorem beside_comment (h : t.kind = .comment ∨ u.kind = .comment) : Beside t u := by
  rcases h with h | h
  · exact ⟨by simp [Token.isOperand, h], by simp [h], fun _ ↦ by simp [isPoint, h]⟩
  · exact ⟨by simp [Token.isOperand, h], fun _ ↦ by simp [isPoint, h], by simp [h]⟩

theorem lineComment_text (ht : Lexed [t]) (hl : t.isLineComment = true) :
    ∃ x : Text, t.text = '-' :: '-' :: x ∧ ∀ c ∈ x, c ≠ '\n' := by
  rcases comment_cases ht (kind_of_isLineComment hl) with h | ⟨x, hx⟩
  · exact h
  · simp only [isLineComment, Bool.and_eq_true] at hl
    rw [hx] at hl
    cases hl.2

variable {sep : List Token}

theorem fuse_text (hc : Lexed [c]) (hcl : c.isLineComment = true) (ht : Lexed [t])
    (htl : t.isLineComment = true) (hs : ∀ a ∈ textOf sep, a ≠ '\n') :
    ∃ x : Text, (fuse sep c t).text = '-' :: '-' :: x ∧ ∀ a ∈ x, a ≠ '\n' := by
  obtain ⟨x, hx, hxn⟩ := lineComment_text hc hcl
  obtain ⟨y, hy, hyn⟩ := lineComment_text ht htl
  rw [fuse, trimmed_of_line hx, trimmed_of_line hy]
  refine ⟨Text.trimEnd x ++ textOf sep ++ ' ' :: '-' :: '-' :: Text.trimEnd y, rfl, fun a ha ↦ ?_⟩
  simp only [List.mem_append, List.mem_cons] at ha
  rcases ha with (ha | ha) | rfl | rfl | rfl | ha
  · exact hxn a (mem_of_mem_trimEnd ha)
  · exact hs a ha
  · decide
  · decide
  · decide
  · exact hyn a (mem_of_mem_trimEnd ha)

theorem trimmed_trimmed (t : Token) : t.trimmed.trimmed = t.trimmed := by
  rw [Token.trimmed, Token.trimmed, trimEnd_trimEnd]

theorem trimmed_fuse (ht : Lexed [t]) (htl : t.isLineComment = true) :
    (fuse sep c t).trimmed = fuse sep c t := by
  obtain ⟨y, hy, -⟩ := lineComment_text ht htl
  have hink : ∃ a ∈ t.trimmed.text, Text.isSpace a = false :=
    ⟨'-', by rw [trimmed_of_line hy]; simp, rfl⟩
  have htr : Text.trimEnd t.trimmed.text = t.trimmed.text := congrArg Token.text (trimmed_trimmed t)
  rw [Token.trimmed, fuse, ← List.singleton_append, ← List.append_assoc, trimEnd_append hink, htr]

theorem abutting_concat {l : List Token} (ha : Abutting (l ++ [c])) (hk : c.kind = u.kind)
    (hc : c.kind = .comment) :
    Abutting (l ++ [u]) := by
  have hu : u.kind = .comment := hk ▸ hc
  induction l with
  | nil => trivial
  | cons v l ih =>
    cases l with
    | nil => exact ⟨beside_comment (.inr hu), trivial⟩
    | cons w l => exact ⟨ha.1, ih ha.2⟩

/-- Two line comments at the end of an expression can become one. -/
theorem Inline.fused (h : Inline (j ++ [c] ++ [t])) (hc : c.isLineComment = true)
    (ht : t.isLineComment = true) (hs : ∀ a ∈ textOf sep, a ≠ '\n') :
    Inline (j ++ [fuse sep c t]) := by
  have hlc := h.left.alone c (by simp)
  have hlt := h.alone t (by simp)
  obtain ⟨x, hx, hn⟩ := fuse_text hlc hc hlt ht hs
  have hf : Lexed [fuse sep c t] := by
    have := lexed_lineComment hn
    rwa [← hx] at this
  refine ⟨fun u hu ↦ ?_, fun u hu ↦ ?_, fun u hu hk ↦ ?_,
    abutting_concat h.left.abutting (kind_of_isLineComment hc) (kind_of_isLineComment hc)⟩
  all_goals rcases List.mem_append.1 hu with hu | hu
  · exact h.left.left.alone u hu
  · rwa [List.mem_singleton.1 hu]
  · exact h.left.left.kinds u hu
  · rw [List.mem_singleton.1 hu]
    exact .inl rfl
  · exact h.left.left.bang u hu hk
  · rw [List.mem_singleton.1 hu] at hk
    cases hk

theorem textOf_bare_fuse (hc : c.isLineComment = true) (ht : Lexed [t])
    (htl : t.isLineComment = true) :
    textOf (bare none (j ++ [fuse sep c t])) =
      textOf (bare none (j ++ [c])) ++ textOf sep ++ ' ' :: t.trimmed.text := by
  have hg : gapAfter (j.getLast?.or none) (fuse sep c t) = gapAfter (j.getLast?.or none) c := by
    have hk : (fuse sep c t).kind = .comment := rfl
    cases j.getLast?.or none with
    | none => rfl
    | some q => simp [gapAfter, hk, kind_of_isLineComment hc]
  rw [bare_concat, bare_concat, hg, trimmed_fuse ht htl]
  simp [fuse]

/-- A printer puts a separator after an item as `punctuated` says. -/
theorem withSeparator_itemText (h : Inline l) (hcode : codeOf l ≠ []) :
    withSeparator (textOf sep) (itemText l) = textOf (punctuated none sep l) := by
  have hcomment : ∀ t : Token, t.isLineComment = true → codeOf [t] = [] := fun t ht ↦ by
    simp [codeOf, kind_of_isLineComment ht]
  rw [punctuated]
  cases e : lineEnding l with
  | code =>
    have hne : l ≠ [] := by
      rintro rfl
      exact hcode rfl
    rw [withSeparator_code h hne (lineEnding_code e), textOf_append]
  | one i t =>
    obtain ⟨rfl, ht, -⟩ := lineEnding_one e
    have hne : i ≠ [] := by
      rintro rfl
      exact hcode (hcomment t ht)
    rw [withSeparator_line h hne ht]
    simp [space]
  | two j c t =>
    obtain ⟨rfl, hc, ht⟩ := lineEnding_two e
    rw [withSeparator_line h (by simp) ht]
    exact (textOf_bare_fuse hc (h.alone t (by simp)) ht).symm

end

end QueryTemplate
