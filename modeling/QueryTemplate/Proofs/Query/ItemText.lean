import QueryTemplate.Proofs.Query.Inline
namespace QueryTemplate

open Token Fragment Grammar Formula

namespace Fragment

/-- A token is put at the end of an expression. -/
def put (f : Fragment) (t : Token) : Fragment :=
  if t.kind = .comment then f.pushComment t else f.pushToken t

/-- The token `p` was put last. -/
structure After (f : Fragment) (p : Option Token) : Prop where
  empty : p = none → f.text = []
  comment : ∀ q ∈ p, q.kind = .comment → f.text.getLast? = some '\n'
  code : ∀ q ∈ p, q.kind ≠ .comment → f.text.getLast? = q.text.getLast? ∧
    trailingWord f.text = trailingWord q.text
  lexical : ∀ q ∈ p, Lexical q ∧ q.kind ≠ .blank

theorem after_empty : After {} none := ⟨fun _ ↦ rfl, nofun, nofun, nofun⟩

theorem needsSpace_congr {s u : Text} {t : Token} (h : s.getLast? = u.getLast?)
    (hw : trailingWord s = trailingWord u) :
    needsSpace s t = needsSpace u t := by
  rw [needsSpace, needsSpace, h, hw]

/-- The space that is put before a token depends only on the token put last. -/
theorem After.textOf_gapAfter {f : Fragment} {p : Option Token} (h : f.After p) (t : Token) :
    textOf (gapAfter p t) =
      if (if t.kind = .comment then f.text.getLast?.any (!Text.isSpace ·)
          else needsSpace f.text t) = true then [' ']
      else [] := by
  cases p with
  | none => simp [gapAfter, h.empty rfl, needsSpace]
  | some q =>
    obtain ⟨hq, hqb⟩ := h.lexical q rfl
    by_cases hc : q.kind = .comment
    · simp [gapAfter, hc, h.comment q rfl hc, needsSpace, Text.isSpace]
    · obtain ⟨hl, hw⟩ := h.code q rfl hc
      have hne := hq.text_ne_nil
      have hs := (hq.solid hqb hc).last _ (List.getLast?_eq_some_getLast hne)
      rw [gapAfter, if_neg hc, needsSpace_congr hl hw, hl, List.getLast?_eq_some_getLast hne,
        Option.any_some, hs]
      by_cases hct : t.kind = .comment
      · simp [hct, space]
      · simp only [hct, false_or, if_false]
        split <;> rfl

theorem After.put {f : Fragment} {p : Option Token} {t : Token} (h : f.After p) (ht : Lexical t)
    (hb : t.kind ≠ .blank) :
    (f.put t).text = f.text ++ textOf (gapAfter p t ++ t :: lineEnd t) ∧
      (f.put t).After (some t) := by
  have hgap := h.textOf_gapAfter t
  rw [textOf_append, textOf_cons, hgap, Fragment.put, lineEnd]
  by_cases hc : t.kind = .comment
  · simp only [hc, if_true, Fragment.pushComment]
    refine ⟨by simp [lineBreak], (fun h ↦ by cases h), fun q hq _ ↦ ?_, fun q hq hn ↦ ?_, fun q hq ↦ ?_⟩
    · simp
    · obtain rfl := Option.some.inj hq
      exact absurd hc hn
    · obtain rfl := Option.some.inj hq
      exact ⟨ht, hb⟩
  · simp only [hc, if_false]
    refine ⟨by simp [Fragment.pushToken], (fun h ↦ by cases h), fun q hq hn ↦ ?_, fun q hq _ ↦ ?_, fun q hq ↦ ?_⟩
    · obtain rfl := Option.some.inj hq
      exact absurd hn hc
    · obtain rfl := Option.some.inj hq
      refine ⟨?_, trailingWord_pushToken f ht⟩
      rw [Fragment.pushToken, List.getLast?_append, List.getLast?_eq_some_getLast ht.text_ne_nil,
        Option.some_or]
    · obtain rfl := Option.some.inj hq
      exact ⟨ht, hb⟩

/-- The tokens of an expression are put one after another. -/
def puts (f : Fragment) (l : List Token) : Fragment := l.foldl put f

theorem text_puts {f : Fragment} {p : Option Token} {l : List Token} (h : f.After p)
    (hl : ∀ t ∈ l, Lexical t ∧ t.kind ≠ .blank) :
    (f.puts l).text = f.text ++ textOf (spaced p l) := by
  induction l generalizing f p with
  | nil => simp [puts, spaced]
  | cons t l ih =>
    obtain ⟨⟨ht, hb⟩, hl⟩ := List.forall_mem_cons.1 hl
    obtain ⟨h₁, h₂⟩ := h.put ht hb
    have ih := ih h₂ hl
    rw [puts] at ih ⊢
    rw [List.foldl_cons, ih, h₁, spaced]
    simp

theorem lineComment_puts (f : Fragment) (l : List Token) :
    (f.puts l).lineComment = (l.getLast?.map isLineComment).getD f.lineComment := by
  induction l generalizing f with
  | nil => rfl
  | cons t l ih =>
    have hput : (f.put t).lineComment = t.isLineComment := by
      rw [put]
      split
      · rfl
      · simp [pushToken, isLineComment, *]
    rw [puts, List.foldl_cons, ← puts, ih, hput]
    cases l with
    | nil => rfl
    | cons u l => rfl

theorem hasCode_puts (f : Fragment) (l : List Token) :
    (f.puts l).hasCode = (f.hasCode || l.any (·.kind ≠ .comment)) := by
  induction l generalizing f with
  | nil => simp [puts]
  | cons t l ih =>
    have hput : (f.put t).hasCode = (f.hasCode || t.kind ≠ .comment : Bool) := by
      rw [put]
      split <;> simp [pushToken, pushComment, *]
    rw [puts, List.foldl_cons, ← puts, ih, hput, List.any_cons, Bool.or_assoc]

end Fragment

/-- The text of the item that is put together from some tokens. -/
def itemText (l : List Token) : Text :=
  textOf (bare none l) ++ if l.getLast?.any isLineComment then ['\n'] else []

theorem Inline.head_bare {t : Token} {l : List Token} (h : Inline (t :: l)) :
    ∃ c s, textOf (bare none (t :: l)) = c :: s ∧ Text.isSpace c = false := by
  obtain ⟨u, r, hb, hu⟩ := bare_cons none t l
  have hl : Lexical u := by
    rcases hu with rfl | rfl
    · exact h.lexical List.mem_cons_self
    · exact ⟨[], h.lexed_trimmed List.mem_cons_self⟩
  have hk : u.kind ≠ .blank := by
    have := h.kind_ne_blank List.mem_cons_self
    rcases hu with rfl | rfl <;> exact this
  obtain ⟨c, s, e⟩ := List.exists_cons_of_ne_nil hl.text_ne_nil
  refine ⟨c, s ++ textOf r, ?_, isSpace_of_startsKind (hl.startsKind c (by rw [e]; rfl)) hk⟩
  rw [hb, gapAfter, List.nil_append, textOf_cons, e, List.cons_append]

theorem Inline.take?_puts {l : List Token} (h : Inline l) (hne : l ≠ []) :
    (Fragment.puts {} l).take? = some (itemText l) := by
  have ht := text_puts after_empty fun t ht ↦ ⟨h.lexical ht, h.kind_ne_blank ht⟩
  have hlc := lineComment_puts {} l
  have hend : l.getLast? = some (l.getLast hne) := List.getLast?_eq_some_getLast hne
  obtain ⟨t, r, rfl⟩ := List.exists_cons_of_ne_nil hne
  obtain ⟨c, s, hb, hc⟩ := h.head_bare
  have htrim : Text.trim (Fragment.puts {} (t :: r)).text = textOf (bare none (t :: r)) := by
    rw [ht, List.nil_append, Text.trim, h.trimEnd_spaced hne, hb, Text.trimStart,
      List.dropWhile_cons_of_neg (by simp [hc])]
  rw [Fragment.take?, htrim, if_neg (by rw [hb]; simp), hlc, itemText, hend, Option.map_some,
    Option.getD_some, Option.any_some]
  split <;> simp

/-- The tokens of an item other than white space and comments. -/
def itemCode (x : Text) : List Token := codeOf (scan x).tokens

theorem Inline.itemCode_itemText {l : List Token} (h : Inline l) :
    itemCode (itemText l) = codeOf l := by
  have hf : Follows l (if l.getLast?.any isLineComment then [lineBreak] else []) := by
    split
    · exact ⟨lexed_nil.blank_cons (fun t ht ↦ by cases ht) (by decide) (by decide),
        sealed_blank rfl _, fun _ _ _ ↦ rfl,
        fun _ _ _ ↦ by simp [lineBreak]⟩
    · exact ⟨lexed_nil, sealed_nil, fun _ _ _ ↦ rfl, fun _ _ _ ↦ Text.stops_nil _⟩
  have hl := h.lexed_bare (p := none) hf
  have ht : itemText l = textOf (bare none l ++ if l.getLast?.any isLineComment then [lineBreak]
      else []) := by
    rw [itemText, textOf_append]
    split <;> rfl
  have hz : codeOf (if l.getLast?.any isLineComment then [lineBreak] else []) = [] := by
    split <;> rfl
  rw [itemCode, ht, show scan _ = _ from hl, codeOf_append, h.codeOf_bare, hz, List.append_nil]

end QueryTemplate
