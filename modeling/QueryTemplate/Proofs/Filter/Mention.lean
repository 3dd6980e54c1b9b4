import QueryTemplate.Proofs.Filter.Fill
import QueryTemplate.Proofs.Filter.Typeset
namespace QueryTemplate

open Token Grammar Recognizer

variable {a b g ts us : List Token} {t : Token} {cs : List (List Token)} {P : Token → Prop}
    {f : Text → Option Text}

/-- The placeholder of the ad-hoc filters. -/
def adhocToken : Token := ⟨.placeholder, "$adhoc"⟩

/-- Tokens with the tokens `g` in the place of each `$adhoc`. -/
def withAdhoc (g ts : List Token) : List Token :=
  ts.flatMap fun t ↦ if t = adhocToken then g else [t]

theorem withAdhoc_adhoc (g ts : List Token) :
    withAdhoc g (adhocToken :: ts) = g ++ withAdhoc g ts := by simp [withAdhoc]

theorem withAdhoc_of_ne (h : t ≠ adhocToken) (g ts : List Token) :
    withAdhoc g (t :: ts) = t :: withAdhoc g ts := by simp [withAdhoc, h]

/-- The predicates with `AND` between them. -/
def conjoined : List (List Token) → List Token
  | [] => []
  | c :: cs => c ++ trail space (cs.map fun c ↦ ⟨linked c, 0⟩)

/-- They are put in the place of `$adhoc` between parentheses. -/
def conjoinedGroup (cs : List (List Token)) : List Token :=
  ⟨.opening, "("⟩ :: (conjoined cs ++ [⟨.closing, ")"⟩])

theorem textOf_conjoined (cs : List (List Token)) :
    textOf (conjoined cs) = Text.join " AND " (cs.map textOf) := by
  have hlinks : ∀ cs : List (List Token), textOf (trail space (cs.map fun c ↦ ⟨linked c, 0⟩)) =
      (cs.map textOf).flatMap (" AND ".toList ++ ·) := by
    intro cs
    induction cs with
    | nil => rfl
    | cons c cs ih =>
      rw [trail, List.map_cons, List.flatMap_cons, textOf_append, ← trail, ih]
      simp [Cell.tokens, linked, Token.and, space]
  cases cs with
  | nil => rfl
  | cons c cs =>
    rw [conjoined, textOf_append, hlinks, List.map_cons]
    exact (join_cons _ _ _).symm

theorem textOf_conjoinedGroup (hne : cs ≠ []) :
    textOf (conjoinedGroup cs) = Filter.render (cs.map textOf) := by
  rw [Filter.render, if_neg (by simpa using hne), conjoinedGroup, textOf_cons, textOf_append,
    textOf_conjoined]
  simp

theorem isInfix_conjoined {c : List Token} (h : c ∈ cs) : c <:+: conjoined cs := by
  obtain ⟨d, cs, rfl⟩ := List.exists_cons_of_ne_nil (List.ne_nil_of_mem h)
  rcases List.mem_cons.1 h with rfl | h
  · exact (List.prefix_append _ _).isInfix
  · exact (isInfix_of_mem_links h space).trans (List.suffix_append _ _).isInfix

theorem isBlock_conjoined (hP : Lax P) (hcs : ∀ c ∈ cs, IsCondition P c) (hne : cs ≠ []) :
    IsBlock P (conjoined cs) := by
  obtain ⟨c, cs, rfl⟩ := List.exists_cons_of_ne_nil hne
  obtain ⟨hc, hcs⟩ := List.forall_mem_cons.1 hcs
  exact hc.toIsBlock.links hP hcs isGap_space

/-- Whatever follows a group, it is read as the tokens of the group. -/
theorem IsBlock.lexed_group (h : IsBlock P a) (hb : Lexed b) :
    Lexed (⟨.opening, "("⟩ :: (a ++ ⟨.closing, ")"⟩ :: b)) := by
  have hclose : Lexed (⟨.closing, ")"⟩ :: b) := lexed_cons.2 ⟨munch_closing_iff.2 (.inl rfl), hb⟩
  have hs : Sealed (textOf (⟨.closing, ")"⟩ :: b)) := ⟨by rintro c ⟨⟩; rfl, by simp⟩
  have hbody : Lexed (a ++ ⟨.closing, ")"⟩ :: b) := by
    refine h.lexed.append hclose hs ?_ (fun t ht ↦ ⟨?_, h.comment t (List.mem_of_getLast? ht)⟩)
      (slashFree_append h.opener hclose.slashFree (by simp))
    · rw [tokenWords_symbol rfl rfl]
      rfl
    · simpa [Token.isBlank] using h.last t ht
  exact lexed_cons.2 ⟨munch_opening_iff.2 (.inl rfl), hbody⟩

theorem isWord_of_startsKind {k : Kind} {c : Char} (h : startsKind k c = true)
    (hn : Text.isNameChar c = false) : Text.isWord c = false := by
  have hop : ∀ w ∈ operators, ∀ c ∈ w.head?, Text.isWord c = false := by decide
  cases k with
  | blank => rcases isBlank_iff.1 h with rfl | rfl | rfl | rfl <;> rfl
  | operator =>
    obtain ⟨w, hw, hc⟩ := List.any_eq_true.1 h
    exact hop w hw c (by simpa using hc)
  | clause | join | joinConstraint | conjunction | membership | identifier =>
    rw [isNameChar_of_startsWord h] at hn
    cases hn
  | number =>
    simp only [startsKind, Bool.or_eq_true, decide_eq_true_eq] at h
    rcases h with h | rfl
    · rw [isNameChar_of_isDigit h] at hn
      cases hn
    · rfl
  | comment | aggregation | placeholder | string | opening | closing | punctuation =>
    simp only [startsKind, Bool.or_eq_true, decide_eq_true_eq, or_assoc] at h
    rcases h with rfl | rfl | rfl | rfl | rfl | rfl <;> rfl

/-- Nothing that could belong to a placeholder without braces comes right after it. -/
theorem stops_of_placeholder {c : Char} {w r : Text} (hc : c ≠ '\x7b')
    (h : (⟨.placeholder, '$' :: c :: w⟩ : Token).ReadBefore r) : Text.Stops isPlaceholderChar r := by
  have hp := (munch_placeholder_iff.1 h).1
  have hbrace : ((exactly "$\x7b").seq ((many (· ≠ '}')).seq (exactly "\x7d"))) ('$' :: c :: w ++ r) = none := by
    simp [Recognizer.seq, exactly, Text.afterPrefix?, hc.symm]
  simp only [placeholder, oneOf, List.findSome?_cons, List.findSome?_nil, hbrace] at hp
  split at hp
  · rename_i e
    rw [Option.some.inj hp] at e
    have e : many1 isPlaceholderChar (c :: w ++ r) = some r := e
    obtain ⟨-, -, -, hs, -⟩ := many1_eq_some_iff.1 e
    exact hs
  · cases hp

/-- No word goes on after `$adhoc`. -/
theorem stops_adhoc (h : Lexed (adhocToken :: ts)) : Text.Stops Text.isWord (textOf ts) := by
  cases ts with
  | nil => exact Text.stops_nil _
  | cons u us =>
    intro c hc
    have hhead : c ∈ u.text.head? := by rwa [textOf_cons, h.tail.head_append] at hc
    refine isWord_of_startsKind (Lexical.startsKind ⟨us, h.tail⟩ c hhead) ?_
    have hstop : Text.Stops isPlaceholderChar (textOf (u :: us)) := stops_of_placeholder (by decide) h.readBefore
    exact stops_name_of_stops_placeholder hstop c hc

/-- Tokens start alike, or with a parenthesis where the others start with `$adhoc`. -/
def StartsAlike (b b' : List Token) : Prop :=
  SameStart b b' ∨ ∃ us us', b = adhocToken :: us ∧ b' = ⟨.opening, "("⟩ :: us'

theorem StartsAlike.cons (h : StartsAlike a b) (hl : Lexed (t :: a)) (hb : Lexed b)
    (ho : t.text ≠ ['/'] ∨ (textOf a).head? ≠ some '*') :
    Lexed (t :: b) ∧ SameStart (t :: a) (t :: b) := by
  rcases h with h | ⟨us, us', rfl, rfl⟩
  · have hslash : SlashFree (t :: b) := by
      refine ⟨fun ht x hx ↦ absurd ?_ (ho.resolve_left fun h ↦ h ht), hb.slashFree⟩
      rw [← h.head, hx]
      rfl
    exact ⟨hl.exchange hb (.of_sameStart hl h) hslash, h.cons hl.text_ne_nil⟩
  · have hwords : ∀ ts, phraseRest (tokenWords (adhocToken :: ts)) = [] :=
      fun ts ↦ by rw [tokenWords_symbol rfl rfl]; rfl
    have hwords' : ∀ ts, phraseRest (tokenWords ((⟨.opening, "("⟩ : Token) :: ts)) = [] :=
      fun ts ↦ by
      rw [tokenWords_symbol rfl rfl]
      rfl
    have hs : Sealed (textOf ((⟨.opening, "("⟩ : Token) :: us')) := ⟨by rintro c ⟨⟩; rfl, by simp⟩
    constructor
    · by_cases hk : t.kind = .blank
      · obtain ⟨k, u⟩ := t
        obtain rfl : k = .blank := hk
        obtain ⟨hne, hu, -⟩ := munch_blank_iff.1 (munch_of_lexed hl)
        exact lexed_cons.2 ⟨munch_blank_iff.2 ⟨hne, hu, by rintro c ⟨⟩; rfl⟩, hb⟩
      · by_cases hc : t.kind = .comment
        · obtain ⟨k, u⟩ := t
          obtain rfl : k = .comment := hc
          refine lexed_cons.2 ⟨munch_comment_congr (munch_of_lexed hl) fun hu ↦ ?_, hb⟩
          have := ((munch_lineComment_iff hu).1 (munch_of_lexed hl)).2 '$' rfl
          cases this
        · refine hl.exchange hb ⟨fun _ ↦ ⟨stops_name_of_delimited hs.1, .inr ?_⟩,
            fun _ ↦ .inr hs.stops_numeric,
            fun _ _ ↦ .inr (.inr (.inr ⟨hs.1, hk, hc⟩))⟩ ⟨fun _ x hx ↦ ?_, hb.slashFree⟩
          · rw [hwords, hwords']
          · cases hx
    · refine sameStart_cons hl.text_ne_nil ((hwords us).trans (hwords' us').symm) ?_
      rw [textOf_cons, textOf_cons]
      rfl

/-- Predicates between parentheses are put in the place of `$adhoc`. -/
theorem lexed_withAdhoc (hB : IsBlock P (conjoined cs)) (hl : Lexed ts)
    (ho : opensComment ts = false) :
    Lexed (withAdhoc (conjoinedGroup cs) ts) ∧
      StartsAlike ts (withAdhoc (conjoinedGroup cs) ts) := by
  induction ts with
  | nil => exact ⟨lexed_nil, .inl ⟨rfl, rfl, rfl⟩⟩
  | cons t ts ih =>
    simp only [opensComment, Bool.or_eq_false_iff, Bool.and_eq_false_iff,
      decide_eq_false_iff_not] at ho
    obtain ⟨h, hs⟩ := ih hl.tail ho.2
    by_cases ht : t = adhocToken
    · subst ht
      have hgroup : conjoinedGroup cs ++ withAdhoc (conjoinedGroup cs) ts =
          ⟨.opening, "("⟩ :: (conjoined cs ++ ⟨.closing, ")"⟩ ::
              withAdhoc (conjoinedGroup cs) ts) := by simp [conjoinedGroup]
      rw [withAdhoc_adhoc, hgroup]
      exact ⟨hB.lexed_group h, .inr ⟨_, _, rfl, rfl⟩⟩
    · rw [withAdhoc_of_ne ht]
      obtain ⟨h, hs⟩ := hs.cons hl h ho.1
      exact ⟨h, .inl hs⟩

/-- The only dollar signs are those of `$adhoc`. -/
def OnlyAdhoc (ts : List Token) : Prop := ∀ t ∈ ts, t = adhocToken ∨ '$' ∉ t.text

theorem substitute_adhoc (hl : Lexed ts) (ht : OnlyAdhoc ts)
    (hf : f "adhoc".toList = some (textOf g)) :
    substitute f (textOf ts) = textOf (withAdhoc g ts) := by
  induction ts with
  | nil => exact substitute_free (by simp)
  | cons t ts ih =>
    obtain ⟨ht, hts⟩ := List.forall_mem_cons.1 ht
    have ih := ih hl.tail hts
    by_cases he : t = adhocToken
    · subst he
      have hw : ∀ c ∈ "adhoc".toList, Text.isWord c = true := by decide
      have := substitute_word (f := f) hw (stops_adhoc hl)
      rw [hf, ih] at this
      rw [withAdhoc_adhoc, textOf_append]
      exact this
    · rw [withAdhoc_of_ne he, textOf_cons, textOf_cons, substitute_append (ht.resolve_left he), ih]

theorem substitute_other (hl : Lexed ts) (ht : OnlyAdhoc ts) (hf : f "adhoc".toList = none) :
    substitute f (textOf ts) = textOf ts := by
  induction ts with
  | nil => exact substitute_free (by simp)
  | cons t ts ih =>
    obtain ⟨ht, hts⟩ := List.forall_mem_cons.1 ht
    have ih := ih hl.tail hts
    by_cases he : t = adhocToken
    · subst he
      have hw : ∀ c ∈ "adhoc".toList, Text.isWord c = true := by decide
      have := substitute_word (f := f) hw (stops_adhoc hl)
      rw [hf] at this
      rw [textOf_cons]
      refine this.trans ?_
      rw [substitute_append (by decide), ih]
      rfl
    · rw [textOf_cons, substitute_append (ht.resolve_left he), ih]

theorem mentions_append {w a : Text} (h : '$' ∉ a) (s : Text) :
    mentions w (a ++ s) = mentions w s := by
  induction a with
  | nil => rfl
  | cons c a ih =>
    rw [List.mem_cons, not_or] at h
    rw [List.cons_append, mentions, ih h.2, decide_eq_false (Ne.symm h.1), Bool.false_and,
      Bool.false_or]

/-- The filters are put into the text exactly where it has the placeholder. -/
theorem mentions_iff (hl : Lexed ts) (ht : OnlyAdhoc ts) :
    mentions "adhoc" (textOf ts) = true ↔ adhocToken ∈ ts := by
  induction ts with
  | nil => simp [mentions]
  | cons t ts ih =>
    obtain ⟨ht, hts⟩ := List.forall_mem_cons.1 ht
    have ih := ih hl.tail hts
    by_cases he : t = adhocToken
    · subst he
      have hw : ∀ c ∈ "adhoc".toList, Text.isWord c = true := by decide
      have htake := Text.takeWhile_append_stops hw (stops_adhoc hl)
      have : mentions "adhoc" (textOf (adhocToken :: ts)) = true := by
        have hs : textOf (adhocToken :: ts) = '$' :: ("adhoc".toList ++ textOf ts) := rfl
        rw [hs, mentions, htake]
        rfl
      exact iff_of_true this List.mem_cons_self
    · rw [textOf_cons, mentions_append (ht.resolve_left he), ih, List.mem_cons]
      exact ⟨.inr, fun h ↦ h.resolve_left (Ne.symm he)⟩

end QueryTemplate
