import QueryTemplate.Proofs.Query.Layout
namespace QueryTemplate

open Token Grammar

namespace Grammar

/-- A number is read alike before a text whose run of digits the old text goes on with. -/
theorem number_of_run {u r r' : Text} (h : number (u ++ r) = some r)
    (hr : r'.takeWhile isNumeric <+: r) : number (u ++ r') = some r' := by
  obtain ⟨z, rfl⟩ := hr
  have hrun : (r'.takeWhile isNumeric ++ []).takeWhile isNumeric = r'.takeWhile isNumeric :=
    Text.takeWhile_append_stops (fun c ↦ Text.mem_takeWhile) (Text.stops_nil _)
  rw [List.append_nil] at hrun
  exact number_congr (number_of_append h) (.inl hrun)

theorem munch_mark {c : Char} (hc : c = ',' ∨ c = ';') (r : Text) :
    munch ([c] ++ r) = some (⟨.punctuation, [c]⟩, r) := by
  refine munch_punctuation_iff.2 ⟨?_, eq_none_of_starts (k := .operator) (by simp [classes]) ?_ _⟩
  · rcases hc with rfl | rfl <;> rfl
  · rcases hc with rfl | rfl <;> rfl

theorem kind_of_delimiter {k : Kind} {c : Char} (hk : startsKind k c = true)
    (hc : isDelimiter c = true) (hp : c ≠ '.') (hb : Text.isBlank c = false) :
    k = .opening ∨ k = .closing ∨ k = .punctuation ∧ (c = ',' ∨ c = ';') := by
  rcases isDelimiter_iff.1 hc with hc | rfl | rfl | rfl | rfl | rfl | rfl | rfl
  · rw [isBlank_iff.2 hc] at hb
    cases hb
  all_goals
    revert hk hp
    cases k <;> decide

end Grammar

instance decidableSealed (r : Text) : Decidable (Sealed r) :=
  inferInstanceAs (Decidable ((∀ c ∈ r.head?, isDelimiter c = true) ∧ r.head? ≠ some '.'))

/-- The tokens that are left without the comments. -/
def uncommented (ts : List Token) : List Token := ts.filter (·.kind ≠ .comment)

def Commented (ts : List Token) : Prop := ∃ c ∈ ts.head?, c.kind = .comment

instance decidableCommented (ts : List Token) : Decidable (Commented ts) :=
  inferInstanceAs (Decidable (∃ c ∈ ts.head?, c.kind = .comment))

/-- The comments can be dropped that come just after the token `t`: it or what comes after them is
white space, a bracket, a comma, a semicolon or the end. Nor do they stand inside of a phrase. -/
structure Separate (t : Token) (ts : List Token) : Prop where
  touch : Commented ts → Sealed t.text ∨ Sealed (textOf (uncommented ts))
  phrase : t.isWord = true →
    classify (leadingWords t.text ++ tokenWords (uncommented ts)) =
      some (t.kind, (leadingWords t.text).length)

/-- All comments can be dropped. -/
def Strippable : List Token → Prop
  | [] => True
  | t :: ts => (t.kind ≠ .comment → Separate t ts) ∧ Strippable ts

variable {t : Token} {ts us : List Token}

theorem separate_iff : Separate t ts ↔
    (Commented ts → Sealed t.text ∨ Sealed (textOf (uncommented ts))) ∧ (t.isWord = true →
      classify (leadingWords t.text ++ tokenWords (uncommented ts)) =
        some (t.kind, (leadingWords t.text).length)) :=
  ⟨fun h ↦ ⟨h.touch, h.phrase⟩, fun h ↦ ⟨h.1, h.2⟩⟩

instance decidableSeparate (t : Token) (ts : List Token) : Decidable (Separate t ts) :=
  decidable_of_iff _ separate_iff.symm

instance decidableStrippable : (ts : List Token) → Decidable (Strippable ts)
  | [] => .isTrue trivial
  | t :: ts =>
    have := decidableStrippable ts
    inferInstanceAs (Decidable ((t.kind ≠ .comment → Separate t ts) ∧ Strippable ts))

theorem uncommented_cons (h : t.kind ≠ .comment) (ts : List Token) :
    uncommented (t :: ts) = t :: uncommented ts :=
  List.filter_cons_of_pos (by simpa using h)

theorem uncommented_comment (h : t.kind = .comment) (ts : List Token) :
    uncommented (t :: ts) = uncommented ts :=
  List.filter_cons_of_neg (by simpa using h)

theorem head_uncommented (h : Lexed ts) (hc : ¬ Commented ts) :
    (textOf (uncommented ts)).head? = (textOf ts).head? := by
  cases ts with
  | nil => rfl
  | cons u ts =>
    have hu : u.kind ≠ .comment := fun e ↦ hc ⟨u, rfl, e⟩
    rw [uncommented_cons hu, textOf_cons, textOf_cons, h.head_append, h.head_append]

/-- Apart from white space, what starts with a sealing character is that character. -/
theorem Lexed.eq_of_sealed (h : Lexed (t :: ts)) (hs : Sealed t.text) (hb : t.isBlank = false) :
    ∃ c, t.text = [c] ∧ isDelimiter c = true ∧ ∀ r, munch (t.text ++ r) = some (t, r) := by
  obtain ⟨c, u, e⟩ := List.exists_cons_of_ne_nil h.text_ne_nil
  have hc : isDelimiter c = true := hs.1 c (by rw [e]; rfl)
  have hk := Lexical.startsKind ⟨ts, h⟩ c (by rw [e]; rfl)
  have hm := munch_of_lexed h
  have hnb : Text.isBlank c = false := by
    rw [Bool.eq_false_iff, Ne, h.isBlank_iff_head, e] at hb
    simpa using hb
  obtain ⟨k, v⟩ := t
  obtain rfl : v = c :: u := e
  have hp : c ≠ '.' := fun e ↦ hs.2 (by rw [e]; rfl)
  have hkind : k = .opening ∨ k = .closing ∨ k = .punctuation ∧ (c = ',' ∨ c = ';') :=
    kind_of_delimiter hk hc hp hnb
  refine ⟨c, ?_, hc, fun r ↦ ?_⟩
  · rcases hkind with rfl | rfl | ⟨rfl, -⟩
    · rcases munch_opening_iff.1 hm with e | e <;> rw [(List.cons.inj e).2]
    · rcases munch_closing_iff.1 hm with e | e <;> rw [(List.cons.inj e).2]
    · obtain ⟨d, -, e⟩ := one_append_iff.1 (munch_punctuation_iff.1 hm).1
      rw [(List.cons.inj e).2]
  · rcases hkind with rfl | rfl | ⟨rfl, hmark⟩
    · exact munch_opening_iff.2 (munch_opening_iff.1 hm)
    · exact munch_closing_iff.2 (munch_closing_iff.1 hm)
    · obtain ⟨d, -, e⟩ := one_append_iff.1 (munch_punctuation_iff.1 hm).1
      rw [(List.cons.inj e).2]
      exact munch_mark hmark r

theorem Lexed.getLast?_of_sealed (h : Lexed (t :: ts)) (hs : Sealed t.text) :
    t.text.getLast? ≠ some '*' := by
  intro e
  cases hb : t.isBlank with
  | true =>
    have := (h.isBlank_iff.1 hb).2.1 '*' (List.mem_of_getLast? e)
    cases this
  | false =>
    obtain ⟨c, hc, hd, -⟩ := h.eq_of_sealed hs hb
    rw [hc] at e
    obtain rfl : c = '*' := by simpa using e
    cases hd

theorem numeric_uncommented (h : Lexed ts) (hp : Strippable ts) (hc : ¬ Commented ts) :
    (textOf (uncommented ts)).takeWhile isNumeric <+: textOf ts := by
  induction ts with
  | nil => exact List.nil_prefix
  | cons u ts ih =>
    -- the run may go on over several tokens, and it ends no later than at the next comment
    have hu : u.kind ≠ .comment := fun e ↦ hc ⟨u, rfl, e⟩
    rw [uncommented_cons hu, textOf_cons, textOf_cons, List.takeWhile_append]
    split
    · rename_i hall
      refine (List.prefix_append_right_inj _).2 ?_
      by_cases hts : Commented ts
      · rcases (hp.1 hu).touch hts with hs | hs
        · rw [Text.takeWhile_of_stops hs.stops_numeric] at hall
          exact absurd (List.length_eq_zero_iff.1 hall.symm) h.text_ne_nil
        · rw [Text.takeWhile_of_stops hs.stops_numeric]
          exact List.nil_prefix
      · exact ih h.tail hp.2 hts
    · exact (List.takeWhile_prefix _).trans (List.prefix_append _ _)

theorem star_uncommented (h : Lexed (t :: ts)) (ht : Separate t ts)
    (hh : (textOf (uncommented ts)).head? = some '/') :
    (textOf ts).head? = some '/' ∨ t.text.getLast? ≠ some '*' := by
  by_cases hc : Commented ts
  · rcases ht.touch hc with hs | hs
    · exact .inr (h.getLast?_of_sealed hs)
    · cases hs.1 '/' hh
  · exact .inl (head_uncommented h.tail hc ▸ hh)

theorem commentEnd_uncommented (h : Lexed ts) (hp : Strippable ts)
    (hc : commentEnd (textOf ts) = none) :
    commentEnd (textOf (uncommented ts)) = none := by
  induction ts with
  | nil => rfl
  | cons t ts ih =>
    by_cases hk : t.kind = .comment
    · rw [uncommented_comment hk]
      exact ih h.tail hp.2 (commentEnd_of_append hc)
    · rw [uncommented_cons hk]
      exact commentEnd_append_none (ih h.tail hp.2) (star_uncommented h (hp.1 hk)) hc

theorem slash_uncommented (h : Lexed (t :: ts)) (hp : Strippable (t :: ts)) (hk : t.kind ≠ .comment)
    (ht : t.text = ['/']) {x : Text} (hx : textOf (uncommented ts) = '*' :: x) :
    commentEnd x = none := by
  have hts : ¬ Commented ts := by
    intro hc
    rcases (hp.1 hk).touch hc with hs | hs
    · have := hs.1 '/' (by rw [ht]; rfl)
      cases this
    · have := hs.1 '*' (by rw [hx]; rfl)
      cases this
  cases ts with
  | nil => cases hx
  | cons u ts =>
    have hu : u.kind ≠ .comment := fun e ↦ hts ⟨u, rfl, e⟩
    obtain ⟨c, y, e⟩ := List.exists_cons_of_ne_nil h.tail.text_ne_nil
    rw [uncommented_cons hu, textOf_cons, e, List.cons_append] at hx
    obtain ⟨rfl, rfl⟩ := List.cons.inj hx
    have hold : commentEnd (y ++ textOf ts) = none :=
      h.slashFree.1 ht _ (by rw [textOf_cons, e]; rfl)
    refine commentEnd_append_none (commentEnd_uncommented h.tail.tail hp.2.2) (fun hh ↦ ?_) hold
    refine (star_uncommented h.tail (hp.2.1 hu) hh).imp_right fun hl hy ↦ hl ?_
    rw [e, List.getLast?_cons, hy]
    rfl

/-- How the tokens `ts` are read once their comments are gone: blanks that meet become one. -/
structure Rejoined (ts us : List Token) : Prop where
  lexed : Lexed us
  text : textOf us = textOf (uncommented ts)
  inked : inked us = inked (uncommented ts)
  words : tokenWords us = tokenWords (uncommented ts)

theorem Rejoined.next (hus : Rejoined ts us) (h : Lexed ts)
    (hs : Commented ts → Sealed (textOf us)) :
    (textOf us).head? = (textOf ts).head? ∨ Sealed (textOf us) := by
  by_cases hc : Commented ts
  · exact .inr (hs hc)
  · exact .inl (hus.text ▸ head_uncommented h hc)

theorem Rejoined.numeric (hus : Rejoined ts us) (h : Lexed ts) (hp : Strippable ts)
    (hs : Commented ts → Sealed (textOf us)) : (textOf us).takeWhile isNumeric <+: textOf ts := by
  by_cases hc : Commented ts
  · rw [Text.takeWhile_of_stops (hs hc).stops_numeric]
    exact List.nil_prefix
  · exact hus.text ▸ numeric_uncommented h hp hc

/-- A token other than white space is read before what comes after it once the comments are gone. -/
theorem Rejoined.munch (hus : Rejoined ts us) (h : Lexed (t :: ts)) (hp : Strippable (t :: ts))
    (hk : t.kind ≠ .comment) (hb : t.isBlank = false) :
    munch (t.text ++ textOf us) = some (t, textOf us) := by
  have hm := munch_of_lexed h
  -- a bracket, a comma or a semicolon needs no look at what follows
  by_cases hseal : Sealed t.text
  · obtain ⟨c, -, -, hc⟩ := h.eq_of_sealed hseal hb
    exact hc _
  have hs : Commented ts → Sealed (textOf us) := fun hc ↦
    hus.text ▸ ((hp.1 hk).touch hc).resolve_left hseal
  have hnext := hus.next h.tail hs
  cases hw : t.isWord with
  | true =>
    have hstop : Text.Stops Text.isNameChar (textOf us) :=
      hnext.elim (stops_congr · (h.stops_word hw)) fun hs ↦ stops_name_of_delimited hs.1
    refine munch_word_congr hw hm hstop ?_
    rw [(h.readBefore.classify_word hw).2,
      classify_append_congr (leadingWords_ne_nil _) (phraseRest_follow hus.lexed hstop), hus.words]
    exact ((hp.1 hk).phrase hw).symm
  | false =>
    have hf : family t.kind ≠ .identifier := fun e ↦ by simp [h.isWord_iff.2 e] at hw
    by_cases hn : t.kind = .number
    · rw [hn, munch_number_iff] at hm
      have := munch_number_iff.2 (number_of_run hm (hus.numeric h.tail hp.2 hs))
      rwa [← hn] at this
    · have hb : t.kind ≠ .blank := by simpa [Token.isBlank] using hb
      exact munch_symbol_congr hm hf hn (hnext.imp_right fun hs ↦ ⟨hs.1, hb, hk⟩) fun e x hx ↦
        slash_uncommented h hp hk e (hus.text ▸ hx)

theorem Rejoined.keep (hus : Rejoined ts us) (h : Lexed (t :: ts)) (hp : Strippable (t :: ts))
    (hk : t.kind ≠ .comment) (hb : t.isBlank = false) : Rejoined (t :: ts) (t :: us) where
  lexed := lexed_cons.2 ⟨hus.munch h hp hk hb, hus.lexed⟩
  text := by rw [uncommented_cons hk, textOf_cons, textOf_cons, hus.text]
  inked := by rw [uncommented_cons hk, inked_cons hb, inked_cons hb, hus.inked]
  words := by simp only [uncommented_cons hk, tokenWords, hus.words]

theorem Rejoined.pad (hus : Rejoined ts us) (h : Lexed (t :: ts)) (hb : t.isBlank = true) :
    ∃ vs, Rejoined (t :: ts) vs := by
  have hk : t.kind ≠ .comment := fun e ↦ by simp [Token.isBlank, e] at hb
  obtain ⟨hne, hall, -⟩ := h.isBlank_iff.1 hb
  have htext : textOf (uncommented (t :: ts)) = t.text ++ textOf us := by
    rw [uncommented_cons hk, textOf_cons, hus.text]
  have hink : QueryTemplate.inked (uncommented (t :: ts)) = QueryTemplate.inked us := by
    rw [uncommented_cons hk, inked_cons_blank hb, hus.inked]
  have hwords : tokenWords (uncommented (t :: ts)) = tokenWords us := by
    rw [uncommented_cons hk, tokenWords_blank hb, hus.words]
  -- white space on both sides of a comment is one token without it
  by_cases hu : ∃ u vs, us = u :: vs ∧ u.isBlank = true
  · obtain ⟨u, vs, rfl, hu⟩ := hu
    obtain ⟨-, hall', hstop⟩ := hus.lexed.isBlank_iff.1 hu
    have hblank : ∀ c ∈ t.text ++ u.text, Text.isBlank c = true :=
      fun c hc ↦ (List.mem_append.1 hc).elim (hall c) (hall' c)
    refine ⟨⟨.blank, t.text ++ u.text⟩ :: vs, ?_, ?_, ?_, ?_⟩
    · exact lexed_cons.2 ⟨munch_blank_iff.2 ⟨by simp [hne], hblank, hstop⟩, hus.lexed.tail⟩
    · simp [htext]
    · rw [hink, inked_cons_blank hu, inked_cons_blank rfl]
    · rw [hwords, tokenWords_blank hu, tokenWords_blank rfl]
  · refine ⟨⟨.blank, t.text⟩ :: us, hus.lexed.blank_cons (fun u he ↦ ?_) hne hall, htext.symm, ?_,
      ?_⟩
    · obtain ⟨vs, rfl⟩ := List.head?_eq_some_iff.1 he
      exact Bool.eq_false_iff.2 fun e ↦ hu ⟨u, vs, rfl, e⟩
    · rw [hink, inked_cons_blank rfl]
    · rw [hwords, tokenWords_blank rfl]

theorem exists_rejoined (h : Lexed ts) (hp : Strippable ts) : ∃ us, Rejoined ts us := by
  induction ts with
  | nil => exact ⟨[], lexed_nil, rfl, rfl, rfl⟩
  | cons t ts ih =>
    obtain ⟨us, hus⟩ := ih h.tail hp.2
    by_cases hk : t.kind = .comment
    · have e := uncommented_comment hk ts
      exact ⟨us, hus.lexed, by rw [e, hus.text], by rw [e, hus.inked], by rw [e, hus.words]⟩
    cases hb : t.isBlank with
    | true => exact hus.pad h hb
    | false => exact ⟨t :: us, hus.keep h hp hk hb⟩

/-- The query without its comments has the same tokens if all comments can be dropped. -/
theorem tokens_stripComments {s : Text} (h : tokens? s = .ok ts) (hp : Strippable ts) :
    ∃ out us, stripComments s = .ok out ∧ tokens? out = .ok us ∧
      inked us = inked (uncommented ts) := by
  obtain ⟨-, hl⟩ := tokens?_eq_ok_iff.1 h
  obtain ⟨us, hus⟩ := exists_rejoined hl hp
  refine ⟨textOf (uncommented ts), us, ?_, tokens?_eq_ok_iff.2 ⟨hus.text, hus.lexed⟩, hus.inked⟩
  rw [stripComments, h]
  rfl

theorem tokens_stripComments_lines : ∃ ts us,
    tokens? "SELECT f(/* of */a),-- first\n 1.5 /* half */ x\nFROM t -- main\nLEFT JOIN u" = .ok ts ∧
      Strippable ts ∧ tokens? "SELECT f(a),\n 1.5  x\nFROM t \nLEFT JOIN u" = .ok us ∧
        inked us = inked (uncommented ts) := by
  let s : Text := "SELECT f(/* of */a),-- first\n 1.5 /* half */ x\nFROM t -- main\nLEFT JOIN u"
  have hrest : (scan s).rest = [] := by decide +kernel
  have hs : tokens? s = .ok (scan s).tokens := by rw [tokens?, hrest]; rfl
  have hp : Strippable (scan s).tokens := by decide +kernel
  obtain ⟨out, us, hout, hus, hink⟩ := tokens_stripComments hs hp
  have hstrip : stripComments s = .ok "SELECT f(a),\n 1.5  x\nFROM t \nLEFT JOIN u" := by
    rw [stripComments, hs]
    exact congrArg Except.ok (by decide +kernel)
  rw [hstrip] at hout
  obtain rfl := Except.ok.inj hout
  exact ⟨_, us, hs, hp, hus, hink⟩

/-- A comment without white space beside it keeps apart what would be a comment. -/
example : (stripComments "SELECT 1 -/**/- 2").toOption = some "SELECT 1 -- 2".toList := by decide +kernel

end QueryTemplate
