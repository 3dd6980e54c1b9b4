import QueryTemplate.Proofs.Token.Relaid
namespace QueryTemplate

open Token Grammar

/-- A text that no token before it takes a part of or looks into. -/
structure Severs (r : Text) : Prop extends EndsPhrase r where
  ne_nil : r ≠ []

theorem stops_of_lineComment {u r : Text} (h : munch (u ++ r) = some (⟨.comment, u⟩, r))
    (hu : ['-', '-'].isPrefixOf u = true) : r.head? = some '\n' ∨ r = [] := by
  obtain ⟨w, rfl⟩ := List.isPrefixOf_iff_prefix.1 hu
  have hc := munch_comment_iff.1 h
  have hl : lineComment (['-', '-'] ++ w ++ r) = some ((w ++ r).dropWhile (· ≠ '\n')) := rfl
  simp only [comment, Recognizer.oneOf, List.findSome?_cons, hl] at hc
  have hs := Text.stops_dropWhile (fun c : Char ↦ decide (c ≠ '\n')) (w ++ r)
  rw [Option.some.inj hc] at hs
  cases r with
  | nil => exact .inr rfl
  | cons c r =>
    left
    have hn := hs c rfl
    simpa using hn

/-- The last token before a text that severs it is read alone. -/
theorem Token.ReadBefore.alone {t : Token} {r : Text} (h : t.ReadBefore r) (hr : Severs r)
    (hw : t.isWord = false) (hn : t.kind ≠ .number) : t.ReadBefore [] := by
  by_cases hb : t.kind = .blank
  · obtain ⟨k, u⟩ := t
    obtain rfl : k = .blank := hb
    obtain ⟨h₁, h₂, -⟩ := munch_blank_iff.1 h
    exact munch_blank_iff.2 ⟨h₁, h₂, Text.stops_nil _⟩
  by_cases hc : t.kind = .comment
  · obtain ⟨k, u⟩ := t
    obtain rfl : k = .comment := hc
    refine munch_comment_congr h fun hu ↦ ?_
    rcases stops_of_lineComment h hu with hx | hx
    · have := hr.blank '\n' hx
      cases this
    · exact absurd hx hr.ne_nil
  · have hf : family t.kind ≠ .identifier := fun e ↦ by simp [h.isWord_iff.2 e] at hw
    exact munch_symbol_congr h hf hn (.inr ⟨nofun, hb, hc⟩) fun _ x hx ↦ nomatch hx

/-- A token other than a word or a number is read alike before all texts that start with a letter. -/
theorem Token.ReadBefore.letter {t : Token} {r r' : Text} (h : t.ReadBefore r)
    (hr : r.head?.any startsWord = true) (hr' : r'.head?.any startsWord = true) (hw : t.isWord = false)
    (hn : t.kind ≠ .number) : t.ReadBefore r' := by
  obtain ⟨c, hc, hcw⟩ := (Option.any_eq_true _ _).1 hr
  obtain ⟨d, hd, hdw⟩ := (Option.any_eq_true _ _).1 hr'
  have hname := isNameChar_of_startsWord hcw
  have hp : Parted r' := fun e he ↦ .inr (Option.some.inj (hd.symm.trans he) ▸ hdw)
  have hf : family t.kind ≠ .identifier := fun e ↦ by simp [h.isWord_iff.2 e] at hw
  obtain ⟨k, u⟩ := t
  cases k with
  | clause | join | joinConstraint | conjunction | membership | identifier => exact absurd rfl hf
  | number => exact absurd rfl hn
  | blank =>
    obtain ⟨h₁, h₂, -⟩ := munch_blank_iff.1 h
    refine munch_blank_iff.2 ⟨h₁, h₂, fun e he ↦ ?_⟩
    obtain rfl := Option.some.inj (hd.symm.trans he)
    rw [Bool.eq_false_iff, Ne, ← familyOf_eq_blank_iff, familyOf_of_startsWord hdw]
    nofun
  | comment =>
    refine munch_comment_congr h fun hu ↦ ?_
    rcases stops_of_lineComment h hu with e | rfl
    · rw [e] at hc
      cases hc
      cases hcw
    · cases hc
  | aggregation =>
    obtain ⟨s, -, h₂⟩ := Option.bind_eq_some_iff.1 (munch_aggregation_iff.1 h)
    obtain ⟨s', -, h₄⟩ := Option.bind_eq_some_iff.1 h₂
    obtain ⟨rfl, hs⟩ := Recognizer.boundary_eq_some_iff.1 h₄
    rw [hs c hc] at hname
    cases hname
  | placeholder =>
    refine munch_placeholder_congr h (.inl fun hs ↦ ?_)
    have := hs c hc
    rw [isPlaceholderChar, hname] at this
    cases this
  | string => exact munch_string_congr h (.inr hp.unquoted)
  | operator =>
    refine munch_operator_congr h (.inr hp) fun _ x hx ↦ ?_
    rw [hx] at hd
    cases hd
    cases hdw
  | opening => exact munch_opening_iff.2 (munch_opening_iff.1 h)
  | closing => exact munch_closing_iff.2 (munch_closing_iff.1 h)
  | punctuation => exact munch_punctuation_congr h (.inr hp)

/-- What follows some tokens can be exchanged if numbers, the last token and comments that are opened take
no note of it. -/
theorem Leads.exchange {r r' : Text} {ts : List Token} (h : Leads r ts) (hr : EndsPhrase r)
    (hr' : EndsPhrase r') (hd : Delimited r')
    (hn : ∀ u x, number (u ++ (x ++ r)) = some (x ++ r) → number (u ++ (x ++ r')) = some (x ++ r'))
    (hl : ∀ t ∈ ts.getLast?, t.isWord = false → t.kind ≠ .number → t.ReadBefore r → t.ReadBefore r')
    (hc : opensComment ts = true → ∀ x, commentEnd (x ++ r) = none → commentEnd (x ++ r') = none) :
    Leads r' ts := by
  induction ts with
  | nil => trivial
  | cons t ts ih =>
    have ht := h.1
    have hts : Leads r' ts := by
      refine ih h.2 (fun u hu ↦ hl u ?_) fun ho ↦ hc (by rw [opensComment, ho, Bool.or_true])
      rw [List.getLast?_cons, Option.mem_def.1 hu]
      rfl
    refine ⟨?_, hts⟩
    have hhead : ts = [] ∨ (textOf ts ++ r').head? = (textOf ts ++ r).head? := by
      cases ts with
      | nil => exact .inl rfl
      | cons u us =>
        refine .inr ?_
        rw [textOf_cons, List.append_assoc, List.append_assoc, h.2.1.head_append, h.2.1.head_append]
    cases hw : t.isWord with
    | true =>
      have hs := ht.stops_word hw
      have hs' : Text.Stops Text.isNameChar (textOf ts ++ r') := by
        rcases hhead with rfl | hhead
        · exact stops_name_of_delimited hd
        · exact stops_congr hhead hs
      refine munch_word_congr hw ht hs' (classify_append_congr (leadingWords_ne_nil _) ?_)
      rw [h.2.phraseRest_follow hr hs, hts.phraseRest_follow hr' hs']
    | false =>
      by_cases hk : t.kind = .number
      · obtain ⟨k, u⟩ := t
        obtain rfl : k = .number := hk
        exact munch_number_iff.2 (hn u (textOf ts) (munch_number_iff.1 ht))
      rcases hhead with rfl | hhead
      · exact hl t rfl hw hk ht
      have hf : family t.kind ≠ .identifier := fun e ↦ by simp [ht.isWord_iff.2 e] at hw
      refine munch_symbol_congr ht hf hk (.inl hhead) fun hu v hv ↦ ?_
      -- an asterisk behind a slash is one of the tokens, and no comment ends after it
      obtain ⟨k, u⟩ := t
      obtain rfl : u = ['/'] := hu
      cases ha : textOf ts with
      | nil =>
        rw [ha, List.nil_append] at hv
        cases hd '*' (hv ▸ rfl)
      | cons d x =>
        rw [ha, List.cons_append] at hv
        obtain ⟨rfl, rfl⟩ := List.cons.inj hv
        rw [Token.ReadBefore, ha] at ht
        exact hc (by simp [opensComment, ha]) x (commentEnd_none_of_munch ht)

/-- Tokens before a text that severs them are read alone. -/
theorem Leads.lexed {r : Text} {ts : List Token} (h : Leads r ts) (hr : Severs r) : Lexed ts := by
  refine leads_nil_iff.1 (h.exchange hr.toEndsPhrase endsPhrase_nil sealed_nil.1 (fun u x hn ↦ ?_)
    (fun t _ hw hk ht ↦ ht.alone hr hw hk) fun _ x hx ↦ ?_)
  · rw [List.append_nil]
    exact number_of_append hn
  · rw [List.append_nil]
    exact commentEnd_left hx

/-- A token severs what stands before it unless it is blank or a word that a phrase can go on with.
-/
theorem Token.ReadBefore.severs_of {t : Token} {s : Text} (h : t.ReadBefore s)
    (hb : t.isBlank = false)
    (hw : t.isWord = true → ∀ w ∈ (leadingWords t.text).head?, w ∉ continuations) :
    Severs (t.text ++ s) := by
  refine ⟨⟨fun c hc ↦ ?_, ?_⟩, fun e ↦ h.text_ne_nil (List.append_eq_nil_iff.1 e).1⟩
  · rw [h.head_append, Option.mem_def] at hc
    rw [Bool.eq_false_iff, Ne, h.isBlank_iff_head, hc] at hb
    simpa using hb
  · cases ht : t.isWord with
    | true =>
      rw [h.leadingWords_append ht (h.stops_word ht)]
      obtain ⟨us, hu⟩ := leadingWords_eq_cons t.text
      rw [hu, List.cons_append, phraseRest, List.takeWhile_cons_of_neg]
      simpa using hw ht _ (by rw [hu]; rfl)
    | false => exact phraseRest_leadingWords (by rwa [h.head_append])

theorem Token.ReadBefore.severs_of_clause {t : Token} {s : Text} (h : t.ReadBefore s)
    (hk : t.kind = .clause) :
    Severs (t.text ++ s) := by
  obtain ⟨w, ws, hl, hw, -⟩ := h.clause_head hk
  refine h.severs_of (by simp [Token.isBlank, hk]) fun _ v hv ↦ ?_
  rw [hl] at hv
  exact Option.some.inj hv ▸ hw

/-- The keywords and signs at which a query is cut into parts that are read by themselves. -/
def IsCut (t : Token) : Prop := t.isCloseParen = true ∨ t.isComma = true ∨ isUnionAll t = true

theorem Token.ReadBefore.severs {t : Token} {s : Text} (h : t.ReadBefore s) (ht : IsCut t) :
    Severs (t.text ++ s) := by
  have hsign : ∀ c : Char, t.text = [c] → t.kind ≠ .blank → startsWord c = false →
      Severs (t.text ++ s) := by
    intro c hc hk hw
    refine h.severs_of (by simp [Token.isBlank, hk]) fun ht ↦ ?_
    rw [Token.isWord, hc, List.head?_cons, Option.any_some, hw] at ht
    cases ht
  rcases ht with ht | ht | ht
  · obtain ⟨hk, ht, -⟩ := isBlank_of_isCloseParen ht
    exact hsign ')' ht (by simp [hk]) rfl
  · simp only [isComma, Bool.and_eq_true, decide_eq_true_eq] at ht
    exact hsign ',' ht.2 (by simp [ht.1]) rfl
  · simp only [isUnionAll, isClause, Bool.and_eq_true, decide_eq_true_eq] at ht
    exact h.severs_of_clause ht.1

theorem leads_of_scan {s : Text} {a b : List Token} (h : (scan s).tokens = a ++ b) :
    s = textOf a ++ (textOf b ++ (scan s).rest) ∧ Leads (textOf b ++ (scan s).rest) a := by
  induction a generalizing s with
  | nil =>
    refine ⟨?_, trivial⟩
    have := textOf_scan s
    rw [h, List.nil_append] at this
    exact this.symm
  | cons t a ih =>
    cases hm : munch s with
    | none =>
      rw [scan_of_munch_none hm] at h
      cases h
    | some p =>
      obtain ⟨u, r⟩ := p
      rw [scan_of_munch hm] at h ⊢
      obtain ⟨rfl, ht⟩ := List.cons.inj h
      obtain ⟨hr, hl⟩ := ih ht
      have hs := (munch_eq_some hm).2
      refine ⟨?_, ?_, hl⟩
      · rw [textOf_cons, List.append_assoc, ← hr]
        exact hs
      · rw [Token.ReadBefore, ← hr, ← hs]
        exact hm

theorem leads_append {r : Text} {a b : List Token} :
    Leads r (a ++ b) ↔ Leads (textOf b ++ r) a ∧ Leads r b := by
  induction a with
  | nil => simp [Leads]
  | cons t a ih => simp [Leads, ih, and_assoc]

theorem Leads.readBefore {r : Text} {a b : List Token} {t : Token} (h : Leads r (a ++ t :: b)) :
    t.ReadBefore (textOf b ++ r) := (leads_append.1 h).2.1

/-- The tokens before a cut are read alone as they are read before it. -/
theorem lexed_of_scan {s : Text} {a b : List Token} {t : Token} (h : (scan s).tokens = a ++ t :: b)
    (ht : IsCut t) : Lexed a := by
  have hl := (leads_of_scan h).2
  have hc : Leads (textOf b ++ (scan s).rest) (a ++ [t]) := (leads_of_scan (by simpa using h)).2
  rw [textOf_cons, List.append_assoc] at hl
  exact hl.lexed (hc.readBefore.severs ht)

/-- The tokens before one that severs them are read alone. -/
theorem Lexed.left_of_severs {a b : List Token} {t : Token} (h : Lexed (a ++ t :: b))
    (ht : Severs (t.text ++ textOf b)) : Lexed a := by
  have hs : (scan (textOf (a ++ t :: b))).tokens = a ++ t :: b := by rw [h]
  have hl := (leads_of_scan hs).2
  rw [h, textOf_cons, List.append_nil] at hl
  exact hl.lexed ht

theorem Lexed.left {a b : List Token} {t : Token} (h : Lexed (a ++ t :: b)) (ht : IsCut t) :
    Lexed a :=
  h.left_of_severs (h.suffix.readBefore.severs ht)

theorem Lexed.left_of_clause {a b : List Token} {t : Token} (h : Lexed (a ++ t :: b))
    (hk : t.kind = .clause) :
    Lexed a := h.left_of_severs (h.suffix.readBefore.severs_of_clause hk)

end QueryTemplate
