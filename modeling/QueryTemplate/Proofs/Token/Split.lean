import QueryTemplate.Proofs.Query.Chapters
import QueryTemplate.Proofs.Query.Inline
import QueryTemplate.Proofs.Query.Unions
import QueryTemplate.Proofs.Token.Bite
import QueryTemplate.Proofs.Filter.Addition
namespace QueryTemplate

open Token Grammar Formula Fragment

/-- The text from the offset `n` on consists of the parts, with the tokens at their places between
them. -/
inductive Stitched : Nat → List Text → List Located → Text → Prop
  | last (n : Nat) (p : Text) : Stitched n [p] [] p
  | cut {n : Nat} {p s : Text} {ps : List Text} {t : Located} {ts : List Located}
    (offset : t.offset = n + Text.bytes p) (rest : Stitched t.stop ps ts s) :
    Stitched n (p :: ps) (t :: ts) (p ++ t.text ++ s)

namespace Stitched

variable {n : Nat} {ps : List Text} {ts : List Located} {s : Text}

theorem length (h : Stitched n ps ts s) : ps.length = ts.length + 1 := by
  induction h with
  | last => rfl
  | cut _ _ ih => rw [List.length_cons, ih, List.length_cons]

theorem prepend {u : Text} (h : Stitched (n + Text.bytes u) ps ts s) :
    Stitched n (ps.modifyHead (u ++ ·)) ts (u ++ s) := by
  cases h with
  | last => exact .last n _
  | cut offset rest =>
    rw [← List.append_assoc, ← List.append_assoc]
    exact .cut (by rw [offset, Text.bytes_append, Nat.add_assoc]) rest

end Stitched

/-- The tokens outside of all parentheses at their offsets, the first of all at `n`. -/
def outsideAt (d n : Nat) (ts : List Token) : List Located :=
  let q := sections (!·.isBlank) d ts
  placeHeadings (n + Text.bytes (textOf q.lead)) q.parts

theorem outsideAt_cons (d n : Nat) (t : Token) (ts : List Token) :
    outsideAt d n (t :: ts) =
      (if standing d t = 0 && !t.isBlank then [⟨t, n⟩] else []) ++
        outsideAt (after (standing d t) t) (n + Text.bytes t.text) ts := by
  cases h : (standing d t = 0 && !t.isBlank : Bool) <;>
    simp [outsideAt, sections, h, placeHeadings, Nat.add_assoc]

section

variable {p : Token → Bool} {ts us : List Token} {t : Token} {s : Text}

theorem outsideTokens_of_tokens (h : tokens? s = .ok ts) : outsideTokens s = .ok (outsideAt 0 0 ts) := by
  simp [outsideTokens, outside, h, Except.map, outsideAt]

/-- The runs between headings, together with the headings, make up the tokens. -/
theorem stitched_sections (hp : ∀ t, p t = true → t.isBlank = false) (d n : Nat) (ts : List Token) :
    Stitched n ((sections p d ts).runs.map textOf)
      ((outsideAt d n ts).filter fun t ↦ p t.toToken) (textOf ts) := by
  induction ts generalizing d n with
  | nil => exact .last n []
  | cons t ts ih =>
    have ih := ih (after (standing d t) t) (n + Text.bytes t.text)
    rw [outsideAt_cons, List.filter_append, sections]
    by_cases hd : standing d t = 0
    · cases hpt : p t with
      | true =>
        simp only [hd, hp t hpt, decide_true, Bool.not_false, Bool.and_true, if_true]
        have h := Stitched.cut (n := n) (p := []) (t := ⟨t, n⟩) rfl (hd ▸ ih)
        simpa [Sections.runs, hpt] using h
      | false =>
        have h := ih.prepend
        cases hb : t.isBlank <;> simpa [Sections.runs, hd, hb, hpt] using h
    · have h := ih.prepend
      simpa [Sections.runs, hd] using h

/-- The runs between headings that sever what stands before them are read by themselves as in the whole,
and have no heading. -/
theorem lexed_of_mem_severed (hp : ∀ t r, p t = true → t.ReadBefore r → Severs (t.text ++ r))
    (ha : ∀ t, p t = true → after 0 t = 0) (h : Lexed ts) :
    ∀ r ∈ splitOutside p ts, Lexed r ∧ Covered p 0 r := by
  induction hn : ts.length using Nat.strongRecOn generalizing ts with
  | ind n ih =>
    rcases splitOutside_eq_or ha ts with hc | ⟨a, t, b, rfl, ht, hc, -, hs⟩
    · rw [splitOutside_of_covered hc]
      exact List.forall_mem_singleton.2 ⟨h, hc⟩
    · rw [List.length_append, List.length_cons] at hn
      rw [hs]
      refine List.forall_mem_cons.2 ⟨⟨h.left_of_severs (hp t _ ht h.suffix.readBefore), hc⟩, ?_⟩
      exact ih b.length (by omega) h.suffix.tail rfl

theorem lexed_of_mem_splitOutside (hp : ∀ t, p t = true → IsCut t ∧ after 0 t = 0) (h : Lexed ts) :
    ∀ r ∈ splitOutside p ts, Lexed r ∧ Covered p 0 r :=
  lexed_of_mem_severed (fun t _ ht hr ↦ hr.severs (hp t ht).1) (fun t ht ↦ (hp t ht).2) h

theorem isCut_of_isComma (t : Token) (h : t.isComma = true) : IsCut t ∧ after 0 t = 0 :=
  ⟨.inr (.inl h), after_of_kind (by simp [kind_of_isComma h])⟩

theorem isCut_of_isUnionAll (t : Token) (h : isUnionAll t = true) : IsCut t ∧ after 0 t = 0 :=
  ⟨.inr (.inr h), after_of_kind (kind_of_isUnionAll t h).1⟩

theorem isNumeric_of_isSpace {c : Char} (h : Text.isSpace c = true) : isNumeric c = false := by
  cases hn : isNumeric c with
  | false => rfl
  | true =>
    simp only [isNumeric, Bool.or_eq_true, decide_eq_true_eq] at hn
    rcases hn with (((hn | rfl) | rfl) | rfl) | rfl
    · rw [Text.isSpace_of_isNameChar (isNameChar_of_isHexDigit hn)] at h
      cases h
    all_goals cases h

/-- What a comment ends with is no part of a number, nor is what follows it. -/
theorem takeWhile_comment {bs : List Token} (h : Lexed (t :: bs)) (ht : Lexed [t])
    (hk : t.kind = .comment) :
    (textOf (t :: bs)).takeWhile isNumeric = (textOf [t.trimmed]).takeWhile isNumeric := by
  rw [textOf_cons, textOf_cons, textOf_nil, List.append_nil]
  rcases comment_cases ht hk with ⟨x, hx, -⟩ | ⟨x, hx⟩
  · have hm := munch_of_lexed h
    rw [hk] at hm
    have hstop : Text.Stops isNumeric (Text.spaceEnd t.text ++ textOf bs) := by
      intro c hc
      rw [List.head?_append] at hc
      cases hs : (Text.spaceEnd t.text).head? with
      | some d =>
        rw [hs] at hc
        obtain rfl := Option.some.inj hc
        exact isNumeric_of_isSpace (Text.mem_takeWhile (List.mem_reverse.1 (List.mem_of_mem_head? hs)))
      | none =>
        rw [hs] at hc
        rcases stops_of_lineComment hm (by rw [hx]; rfl) with e | e <;> rw [e] at hc <;> cases hc
        rfl
    rw [← Text.takeWhile_append_of_stops hstop t.trimmed.text, ← List.append_assoc]
    exact congrArg (fun u ↦ (u ++ textOf bs).takeWhile isNumeric) (Text.trimEnd_append_spaceEnd t.text).symm
  · rw [trimmed_of_block hx, hx]
    rfl

/-- Tokens before a comment can be read before what is left of it. -/
theorem Lexed.comment_trimmed {a bs : List Token} (h : Lexed (a ++ t :: bs)) (hk : t.kind = .comment) :
    Lexed (a ++ [t.trimmed]) := by
  have htail := h.suffix
  have hword : ∀ {us : List Token}, Lexed (t :: us) → t.isWord = false := fun hu ↦ by
    rw [Bool.eq_false_iff, Ne, hu.isWord_iff, hk]
    decide
  have hb : t.isBlank = false := by simp [Token.isBlank, hk]
  have ht : Lexed [t] := htail.alone (by simp [hk]) fun hw ↦ by
    rw [hword htail] at hw
    cases hw
  have ht' : Lexed [t.trimmed] := lexed_trimmed_singleton ht (by simp [hk])
  obtain ⟨c, x, hx⟩ := List.exists_cons_of_ne_nil ht'.text_ne_nil
  obtain ⟨y, hy⟩ : ∃ y, textOf (t :: bs) = c :: (x ++ y) := by
    refine ⟨Text.spaceEnd t.text ++ textOf bs, ?_⟩
    rw [← List.cons_append, ← hx, textOf_cons, ← List.append_assoc]
    exact congrArg (· ++ textOf bs) (Text.trimEnd_append_spaceEnd t.text).symm
  have hhead : (textOf [t.trimmed]).head? = (textOf (t :: bs)).head? := by
    rw [hy, textOf_cons, hx]
    rfl
  have hw' : t.trimmed.isWord = false := by
    rw [Bool.eq_false_iff, Ne, ht'.isWord_iff]
    simp [Token.trimmed, hk, family]
  have hs : SameStart (t :: bs) [t.trimmed] := by
    refine ⟨hhead, ?_, takeWhile_comment htail ht hk⟩
    rw [tokenWords_symbol hb (hword htail), tokenWords_symbol (by simp [Token.isBlank, Token.trimmed, hk]) hw']
  refine (h.append_exchange ht' hs (h.slashFree.append (slashFree_singleton _) hhead ?_ ?_)).1
  · rw [hy, textOf_cons, hx]
    exact fun hn ↦ commentEnd_left (x := y) (by simpa using hn)
  · rw [hy, textOf_cons, hx]
    exact fun hn ↦ commentEnd_left (x := y) (by simpa using hn)

theorem Lexed.isSpace_of_blanks {gs : List Token} (h : Lexed ts) (hg : ∀ t ∈ gs, t ∈ ts ∧ t.isBlank = true) :
    ∀ c ∈ textOf gs, Text.isSpace c = true := by
  intro c hc
  obtain ⟨t, ht, hc⟩ := List.mem_flatMap.1 hc
  obtain ⟨hm, hb⟩ := hg t ht
  exact Text.isSpace_of_isBlank ((h.lexical t hm).blank (by simpa [Token.isBlank] using hb) c hc)

/-- What is left of some tokens without white space after the last one. -/
theorem Lexed.trimEnd_append {a gs : List Token} (h : Lexed (a ++ t :: gs)) (hb : t.isBlank = false)
    (hg : ∀ t ∈ gs, t.isBlank = true) :
    Lexed (a ++ [t.trimmed]) ∧
      Text.trimEnd (textOf (a ++ t :: gs)) = textOf (a ++ [t.trimmed]) ∧
      codeOf [t.trimmed] = codeOf [t] := by
  have hk : t.kind ≠ .blank := by simpa [Token.isBlank] using hb
  have hl : Lexical t := ⟨gs, h.suffix⟩
  refine ⟨?_, ?_, ?_⟩
  · by_cases hc : t.kind = .comment
    · exact h.comment_trimmed hc
    · have h' : Lexed (a ++ [t] ++ gs) := by simpa using h
      have hd := h'.dropBlanks hg (by simpa using ⟨hk, hc⟩)
      rwa [Token.trimmed, (hl.solid hk hc).trimEnd]
  · have hs : ∀ c ∈ textOf gs, Text.isSpace c = true :=
      h.isSpace_of_blanks fun t ht ↦ ⟨by simp [ht], hg t ht⟩
    rw [textOf_append, textOf_cons, ← List.append_assoc, trimEnd_append_spaces hs,
      Fragment.trimEnd_append (ink_of_lexical hl hk), textOf_append]
    simp [Token.trimmed]
  · by_cases hc : t.kind = .comment
    · simp [codeOf, Token.trimmed, hc]
    · rw [Token.trimmed, (hl.solid hk hc).trimEnd]

theorem Lexed.stops_isSpace (h : Lexed ts) (hb : ∀ t ∈ ts.head?, t.isBlank = false) :
    Text.Stops Text.isSpace (textOf ts) := by
  intro c hc
  cases ts with
  | nil => cases hc
  | cons t ts =>
    rw [textOf_cons, h.head_append] at hc
    refine isSpace_of_startsKind (Lexical.startsKind ⟨ts, h⟩ c hc) ?_
    simpa [Token.isBlank] using hb t rfl

/-- Tokens are blank, or there are a first and a last one that are not. -/
theorem blanks_or_between (ts : List Token) : (∀ t ∈ ts, t.isBlank = true) ∨
    ∃ gs us t bs, ts = gs ++ (us ++ t :: bs) ∧ (∀ t ∈ gs, t.isBlank = true) ∧
      (∀ t ∈ bs, t.isBlank = true) ∧ t.isBlank = false ∧ ∀ v ∈ (us ++ [t]).head?, v.isBlank = false := by
  have hts : ts.takeWhile isBlank ++ ts.dropWhile isBlank = ts := List.takeWhile_append_dropWhile
  have hgs : ∀ t ∈ ts.takeWhile isBlank, t.isBlank = true := fun t ht ↦ List.mem_takeWhile_imp ht
  cases hv : ts.dropWhile isBlank with
  | nil =>
    rw [hv, List.append_nil] at hts
    exact .inl (hts ▸ hgs)
  | cons v vs =>
    have hvb : v.isBlank = false := by
      have := List.head?_dropWhile_not isBlank ts
      simpa [hv] using this
    have hne : trimmed (v :: vs) ≠ [] := fun e ↦ by
      have := List.rdropWhile_eq_nil_iff.1 e v List.mem_cons_self
      simp [hvb] at this
    have hend := trimmed_append_blankEnd (v :: vs)
    have hu := List.dropLast_concat_getLast hne
    refine .inr ⟨_, (trimmed (v :: vs)).dropLast, (trimmed (v :: vs)).getLast hne, blankEnd (v :: vs), ?_, hgs,
      fun t ht ↦ isBlank_of_mem_blankEnd ht, ?_, ?_⟩
    · rw [List.append_cons, hu, hend, ← hv, hts]
    · exact Bool.eq_false_iff.2 (List.rdropWhile_last_not isBlank (v :: vs) hne)
    · rw [hu]
      intro w hw
      obtain ⟨us, hus⟩ := List.head?_eq_some_iff.1 hw
      rw [hus] at hend
      exact (List.cons.inj hend).1 ▸ hvb

/-- A text without white space at both ends is read as the same code. -/
theorem Lexed.exists_trim (h : Lexed ts) :
    ∃ us, Lexed us ∧ textOf us = Text.trim (textOf ts) ∧ codeOf us = codeOf ts := by
  have hcode : ∀ {gs : List Token}, (∀ t ∈ gs, t.isBlank = true) → codeOf gs = [] :=
    fun hg ↦ codeOf_blanks fun t ht ↦ by simpa [Token.isBlank] using hg t ht
  rcases blanks_or_between ts with hb | ⟨gs, us, t, bs, rfl, hgs, hbs, ht, hhead⟩
  · refine ⟨[], lexed_nil, ?_, (hcode hb).symm⟩
    rw [Text.trim, ← List.nil_append (textOf ts),
      trimEnd_append_spaces (h.isSpace_of_blanks fun t ht ↦ ⟨ht, hb t ht⟩)]
    rfl
  · have hspace := h.isSpace_of_blanks fun t ht ↦ ⟨List.mem_append_left _ ht, hgs t ht⟩
    rw [← List.append_assoc] at h
    obtain ⟨hl, htext, hc⟩ := h.trimEnd_append ht hbs
    rw [List.append_assoc] at hl
    have hstop : Text.Stops Text.isSpace (textOf (us ++ [t.trimmed])) := by
      refine hl.suffix.stops_isSpace fun v hv ↦ ?_
      cases us with
      | nil => exact Option.some.inj hv ▸ ht
      | cons u us => exact hhead v hv
    refine ⟨us ++ [t.trimmed], hl.suffix, ?_, ?_⟩
    · rw [Text.trim, ← List.append_assoc, htext, List.append_assoc, textOf_append gs, Text.trimStart,
        Text.dropWhile_append_stops hspace hstop]
    · have hcons : codeOf (t :: bs) = codeOf [t] ++ codeOf bs := codeOf_append [t] bs
      rw [codeOf_append, codeOf_append gs, codeOf_append us (t :: bs), hcons, hc, hcode hgs, hcode hbs,
        List.nil_append, List.append_nil]

theorem trimmed_eq_self (h : ∀ t ∈ ts.getLast?, t.isBlank = false) : trimmed ts = ts :=
  List.rdropWhile_eq_self_iff.2 fun hne hb ↦ by simp [h _ (List.getLast?_eq_some_getLast hne)] at hb

theorem trimmed_append_blanks {gs : List Token} (h : ∀ t ∈ ts.getLast?, t.isBlank = false)
    (hg : ∀ t ∈ gs, t.isBlank = true) : trimmed (ts ++ gs) = ts := by
  induction gs using List.reverseRecOn with
  | nil => rw [List.append_nil, trimmed_eq_self h]
  | append_singleton gs g ih =>
    obtain ⟨hgs, hg⟩ := List.forall_mem_append.1 hg
    rw [← List.append_assoc]
    exact (List.rdropWhile_concat_pos _ _ _ (hg g (by simp))).trans (ih hgs)

theorem head_dropWhile_isBlank : ∀ t ∈ (ts.dropWhile isBlank).head?, t.isBlank = false := by
  intro t ht
  have h := List.head?_dropWhile_not isBlank ts
  rwa [ht] at h

/-- A text that ends in code is trimmed by leaving out the white space before it. -/
theorem Lexed.trim_eq (h : Lexed ts) (hc : ∀ t ∈ ts, t.kind ≠ .comment) (hl : ∀ t ∈ ts.getLast?, t.isBlank = false) :
    Text.trim (textOf ts) = textOf (ts.dropWhile isBlank) := by
  have hspace := h.isSpace_of_blanks fun t ht ↦
    ⟨(List.takeWhile_prefix isBlank).subset ht, List.mem_takeWhile_imp ht⟩
  have hsplit := List.takeWhile_append_dropWhile (p := isBlank) (l := ts)
  have hrest : Lexed (ts.dropWhile isBlank) := Lexed.suffix (a := ts.takeWhile isBlank) (by rwa [hsplit])
  have hstop := hrest.stops_isSpace head_dropWhile_isBlank
  have htext : textOf (ts.takeWhile isBlank) ++ textOf (ts.dropWhile isBlank) = textOf ts := by
    rw [← textOf_append, hsplit]
  rw [Text.trim, h.trimEnd hc, trimmed_eq_self hl, Text.trimStart, ← htext, Text.dropWhile_append_stops hspace hstop]

/-- Nothing is left to trim of a trimmed text. -/
theorem solid_trim (s : Text) : Solid (Text.trim s) where
  head := Text.stops_dropWhile Text.isSpace _
  last c hc := by
    have hsuf : Text.trim s <:+ Text.trimEnd s := List.dropWhile_suffix _
    have hne : Text.trim s ≠ [] := by
      intro e
      rw [e] at hc
      cases hc
    rw [getLast?_of_suffix hsuf hne, Text.trimEnd, List.getLast?_reverse] at hc
    exact Text.stops_dropWhile Text.isSpace _ c hc

theorem splitArguments_of_splitText {xs : List Text} (h : splitText isComma s = .ok xs)
    (hne : Text.trim s ≠ []) : splitArguments s = .ok (xs.map Text.trim) := by
  rw [splitText] at h
  cases hs : tokens? s with
  | error => rw [hs] at h; cases h
  | ok ts =>
    rw [hs] at h
    obtain rfl := Except.ok.inj h
    rw [splitArguments, if_neg hne, hs, Except.map, argumentsOf, textOf_of_tokens? hs, if_neg hne, List.map_map]

/-- White space and comments are no headings. -/
theorem Covered.of_code (h : Covered p 0 ts) (hp : ∀ t, p t = true → t.kind ≠ .blank ∧ t.kind ≠ .comment)
    (hc : codeOf us = codeOf ts) : Covered p 0 us := by
  have hs := sections_codeOf (d := 0) hp
  rw [Covered, ← List.map_eq_nil_iff (f := fun q : Token × List Token ↦ (q.1, codeOf q.2))]
  have h₁ := congrArg Sections.parts (hs us)
  have h₂ := congrArg Sections.parts (hs ts)
  rw [hc] at h₁
  simp only at h₁ h₂
  rw [← h₁, h₂, h, List.map_nil]

end

end QueryTemplate
