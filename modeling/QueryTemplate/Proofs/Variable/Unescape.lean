import QueryTemplate.Proofs.Filter.Fill
import QueryTemplate.Proofs.Token.Call
import QueryTemplate.Proofs.Token.Quoted
namespace QueryTemplate

open Token Grammar

variable {s : Text} {c : Call}

theorem unescape_of_call (h : findCall s unescapeName = .ok (some c)) :
    unescape s = unescape (c.before ++ c.args.filter (· ≠ '\'') ++ c.after) := by
  rw [unescape]
  split
  · simp_all
  · simp_all
  · rename_i c' h'
    obtain rfl := Option.some.inj (Except.ok.inj (h.symm.trans h'))
    rfl

theorem unescape_of_error {e : Error} (h : findCall s unescapeName = .error e) : unescape s = .error e := by
  rw [unescape]
  split <;> simp_all

/-- In a text without dollar signs there is no call. -/
theorem unescape_free (h : '$' ∉ s) : unescape s = (tokens? s).map fun _ ↦ s := by
  have hother : (scan s).tokens.dropWhile (fun t ↦ !(t.kind = .placeholder && t.text = unescapeName)) = [] := by
    refine List.dropWhile_eq_nil_iff.2 fun t ht ↦ ?_
    have hne : t.text ≠ unescapeName := by
      intro e
      refine h ?_
      rw [← textOf_scan s]
      exact List.mem_append_left _ (List.mem_flatMap.2 ⟨t, ht, e ▸ List.mem_cons_self⟩)
    simp [hne]
  have hfind : findCall s unescapeName = atEnd (scan s).rest none := by simp only [findCall, hother]
  rw [tokens?]
  by_cases hr : (scan s).rest = []
  · rw [atEnd, if_pos hr] at hfind ⊢
    exact unescape_of_findCall hfind
  · rw [atEnd, if_neg hr] at hfind ⊢
    exact unescape_of_error hfind

/-- What is left of a literal without its single quotes: one backslash for each quote in it, and two for each
backslash. -/
def unquoted (s : Text) : Text :=
  s.flatMap fun c ↦ if c = '\'' then ['\\'] else if c = '\\' then ['\\', '\\'] else [c]

theorem unquoted_cons (c : Char) (s : Text) : unquoted (c :: s) =
    (if c = '\'' then ['\\'] else if c = '\\' then ['\\', '\\'] else [c]) ++ unquoted s := rfl

theorem filter_quote (s : Text) : (Text.quote s).filter (· ≠ '\'') = unquoted s := by
  have hflat : ∀ s : Text, (s.flatMap fun c ↦ if c = '\\' || c = '\'' then ['\\', c] else [c]).filter (· ≠ '\'') =
      unquoted s := by
    intro s
    induction s with
    | nil => rfl
    | cons c s ih =>
      rw [List.flatMap_cons, List.filter_append, ih, unquoted_cons]
      congr 1
      by_cases hq : c = '\''
      · subst hq
        rfl
      by_cases hb : c = '\\'
      · subst hb
        rfl
      simp [hq, hb]
  rw [Text.quote, List.cons_append, List.filter_cons_of_neg (by decide), List.filter_append, hflat]
  exact List.append_nil _

theorem count_unquoted (s : Text) : (unquoted s).count '\\' = s.count '\'' + 2 * s.count '\\' := by
  induction s with
  | nil => rfl
  | cons c s ih =>
    rw [unquoted_cons, List.count_append, ih, List.count_cons, List.count_cons]
    by_cases hq : c = '\''
    · subst hq
      simp
      omega
    by_cases hb : c = '\\'
    · subst hb
      simp
      omega
    simp [hq, hb]

/-- A quote or a backslash leaves more backslashes than there were. -/
theorem unquoted_eq_self_iff : unquoted s = s ↔ '\'' ∉ s ∧ '\\' ∉ s := by
  constructor
  · intro h
    have hc := count_unquoted s
    rw [h] at hc
    exact ⟨List.count_eq_zero.1 (by omega), List.count_eq_zero.1 (by omega)⟩
  · rintro ⟨hq, hb⟩
    induction s with
    | nil => rfl
    | cons c s ih =>
      rw [List.mem_cons, not_or] at hq hb
      rw [unquoted_cons, if_neg (Ne.symm hq.1), if_neg (Ne.symm hb.1), ih hq.2 hb.2]
      rfl

/-- Without dollar signs in a text there are none in what is left of its literal. -/
theorem unquoted_free (h : '$' ∉ s) : '$' ∉ unquoted s := by
  intro hm
  obtain ⟨c, hc, hm⟩ := List.mem_flatMap.1 hm
  split at hm
  · simp at hm
  · split at hm
    · simp at hm
    · exact h (List.mem_singleton.1 hm ▸ hc)

theorem findCall_quote (s : Text) : findCall ("$unescape(" ++ Text.quote s ++ ")") unescapeName =
    .ok (some ⟨[], Text.quote s, []⟩) := by
  have he : Lexed [⟨.closing, ")"⟩] := by decide
  have hq : Lexed [⟨.string, Text.quote s⟩, ⟨.closing, ")"⟩] :=
    lexed_cons.2 ⟨munch_quote s (by simp), he⟩
  have ho : Lexed [⟨.opening, "("⟩, ⟨.string, Text.quote s⟩, ⟨.closing, ")"⟩] :=
    lexed_cons.2 ⟨readBefore_of_isOpenParen rfl _, hq⟩
  have hm : munch (unescapeName ++ ['(']) = some (⟨.placeholder, unescapeName⟩, ['(']) := by decide +kernel
  have hn : Lexed [⟨.placeholder, unescapeName⟩, ⟨.opening, "("⟩, ⟨.string, Text.quote s⟩, ⟨.closing, ")"⟩] := by
    exact lexed_cons.2 ⟨munch_placeholder_congr hm (.inr (.inl rfl)), ho⟩
  have htext : "$unescape(" ++ Text.quote s ++ ")" = textOf [⟨.placeholder, unescapeName⟩, ⟨.opening, "("⟩,
      ⟨.string, Text.quote s⟩, ⟨.closing, ")"⟩] := by
    rw [List.append_assoc]
    rfl
  rw [Lexed, ← htext] at hn
  have hhead : CallHead unescapeName [] [⟨.placeholder, unescapeName⟩, ⟨.opening, "("⟩] :=
    ⟨by decide, _, [], _, rfl, by decide, by decide, rfl⟩
  have hts : (scan ("$unescape(" ++ Text.quote s ++ ")")).tokens =
      [⟨.placeholder, unescapeName⟩, ⟨.opening, "("⟩] ++ ([⟨.string, Text.quote s⟩] ++ ⟨.closing, ")"⟩ :: []) :=
    congrArg Scan.tokens hn
  have hfind := findCall_of_tokens hts hhead rfl rfl
  rw [hfind, hn]
  simp

/-- Unquoting a literal in a call leaves its text without the quotes, if that can be read. -/
theorem unescape_quote (h : '$' ∉ s) :
    unescape ("$unescape(" ++ Text.quote s ++ ")") = (tokens? (unquoted s)).map fun _ ↦ unquoted s := by
  rw [unescape_of_call (findCall_quote s), filter_quote, List.nil_append, List.append_nil,
    unescape_free (unquoted_free h)]

/-- A call of `$unescape` undoes the quoting of a text exactly if the text has neither a single quote nor a
backslash. -/
theorem unescape_quote_iff {ts : List Token} (h : '$' ∉ s) (hs : tokens? s = .ok ts) :
    unescape ("$unescape(" ++ Text.quote s ++ ")") = .ok s ↔ '\'' ∉ s ∧ '\\' ∉ s := by
  rw [unescape_quote h, ← unquoted_eq_self_iff]
  constructor
  · intro e
    cases ht : tokens? (unquoted s) with
    | error => rw [ht] at e; cases e
    | ok us =>
      rw [ht] at e
      exact Except.ok.inj e
  · intro e
    rw [e, hs]
    rfl

theorem unescape_quote_iff_literal :
    unescape ("$unescape(" ++ Text.quote "max(\"a b\") > 1" ++ ")") = .ok "max(\"a b\") > 1" ∧
      unescape ("$unescape(" ++ Text.quote "\"it's\"" ++ ")") ≠ .ok "\"it's\"" := by
  have hcall : tokens? "max(\"a b\") > 1" = .ok [⟨.identifier, "max"⟩, ⟨.opening, "("⟩, ⟨.string, "\"a b\""⟩,
      ⟨.closing, ")"⟩, space, ⟨.operator, ">"⟩, space, ⟨.number, "1"⟩] :=
    tokens?_eq_ok_iff.2 ⟨rfl, by decide +kernel⟩
  have hliteral : tokens? "\"it's\"" = .ok [⟨.string, "\"it's\""⟩] := tokens?_eq_ok_iff.2 ⟨rfl, by decide +kernel⟩
  refine ⟨(unescape_quote_iff (by decide) hcall).2 (by decide), fun e ↦ ?_⟩
  exact absurd ((unescape_quote_iff (by decide) hliteral).1 e).1 (by decide)

end QueryTemplate
