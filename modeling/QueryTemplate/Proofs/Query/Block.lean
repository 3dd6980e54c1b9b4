import QueryTemplate.Proofs.Query.Roundtrip
import QueryTemplate.Proofs.Token.Alone
namespace QueryTemplate

open Token Fragment Grammar

variable {a b ts ps vs z : List Token} {t gap : Token} {indent : Text} {P : Token → Prop}

theorem opensComment_append (a : List Token) {b b' : List Token}
    (hh : (textOf b').head? = (textOf b).head?) (h : opensComment (a ++ b) = false)
    (ho : opensComment b' = false) : opensComment (a ++ b') = false := by
  induction a with
  | nil => exact ho
  | cons t a ih =>
    have hsame : (textOf (a ++ b')).head? = (textOf (a ++ b)).head? := by
      rw [textOf_append, textOf_append, List.head?_append, List.head?_append, hh]
    simp only [List.cons_append, opensComment, Bool.or_eq_false_iff] at h ⊢
    exact ⟨by rw [hsame]; exact h.1, ih h.2⟩

theorem opensComment_cons (h : t.text ≠ ['/'] ∨ (textOf ts).head? ≠ some '*')
    (hs : opensComment ts = false) :
    opensComment (t :: ts) = false := by
  rw [opensComment, hs, Bool.or_false, Bool.and_eq_false_iff, decide_eq_false_iff_not,
    decide_eq_false_iff_not]
  exact h

theorem opensComment_left (a b : List Token) (h : opensComment (a ++ b) = false) :
    opensComment a = false := by
  induction a with
  | nil => rfl
  | cons t a ih =>
    simp only [List.cons_append, opensComment, Bool.or_eq_false_iff, Bool.and_eq_false_iff,
      decide_eq_false_iff_not] at h
    refine opensComment_cons (h.1.imp_right fun hn e ↦ hn ?_) (ih h.2)
    rw [textOf_append, List.head?_append, e]
    rfl

theorem Relaid.suffix (h : Relaid z ts ps) : z <:+ ts := by
  induction h with
  | nil => exact List.suffix_rfl
  | skip _ _ ih | keep _ _ _ _ _ ih | rewrite _ _ _ _ _ _ _ ih | comma _ _ ih =>
    exact ih.trans (List.suffix_cons _ _)
  | pad _ _ _ _ ih => exact ih
  | @raw b e ts _ _ _ _ ih => exact ih.trans ((List.suffix_cons e ts).trans (List.suffix_append b _))

theorem opensComment_right (a b : List Token) (h : opensComment (a ++ b) = false) :
    opensComment b = false := by
  induction a with
  | nil => exact h
  | cons t a ih =>
    simp only [List.cons_append, opensComment, Bool.or_eq_false_iff] at h
    exact ih h.2

theorem opensComment_join (ha : opensComment a = false) (hb : opensComment b = false)
    (hh : (textOf b).head? ≠ some '*') :
    opensComment (a ++ b) = false := by
  induction a with
  | nil => exact hb
  | cons t a ih =>
    simp only [opensComment, Bool.or_eq_false_iff, Bool.and_eq_false_iff,
      decide_eq_false_iff_not] at ha
    rw [List.cons_append]
    refine opensComment_cons (ha.1.imp_right fun hn e ↦ ?_) (ih ha.2)
    rw [textOf_append, List.head?_append] at e
    cases h : (textOf a).head? with
    | none => exact hh (by rwa [h] at e)
    | some c => exact hn (by rwa [h] at e ⊢)

/-- What is laid out anew before the tokens `z` is a part of the tokens before them. -/
theorem exists_left_of_suffix {x w : List Token} (e : ts ++ z = x ++ w) (h : z <:+ w) :
    ∃ us, ts = x ++ us ∧ us ++ z = w := by
  obtain ⟨us, rfl⟩ := h
  rw [← List.append_assoc] at e
  exact ⟨us, List.append_cancel_right e, rfl⟩

/-- A printer puts no slash just before an asterisk. -/
theorem Relaid.opener (h : Relaid z (ts ++ z) ps) (hl : Lexed (ts ++ z))
    (ho : opensComment ts = false) : opensComment ps = false := by
  generalize hw : ts ++ z = w at h hl
  induction h generalizing ts with
  | nil => rfl
  | @skip t _ _ _ h ih =>
    obtain ⟨us, rfl, hz⟩ := exists_left_of_suffix (x := [t]) hw h.suffix
    exact ih (opensComment_right _ _ ho) hz hl.tail
  | pad hg hb _ _ ih =>
    refine opensComment_cons (.inl ?_) (ih ho hw hl)
    rintro rfl
    cases hb '/' List.mem_cons_self
  | @keep t _ _ _ _ hloose _ h ih =>
    obtain ⟨us, rfl, hz⟩ := exists_left_of_suffix (x := [t]) hw h.suffix
    refine opensComment_cons ?_ (ih (opensComment_right _ _ ho) hz hl.tail)
    refine Decidable.or_iff_not_imp_left.2 fun ht e ↦ ?_
    obtain ⟨x, hx⟩ := List.head?_eq_some_iff.1 e
    exact hloose.ne_star hl (Decidable.not_not.1 ht) x hx
  | @rewrite t u _ _ ht hu _ hlu _ _ h ih =>
    obtain ⟨us, rfl, hz⟩ := exists_left_of_suffix (x := [t]) hw h.suffix
    exact opensComment_cons (.inl (Lexed.ne_slash
      (hlu.isWord_of_kind (hu ▸ Token.family_of_isTitle ht))))
      (ih (opensComment_right _ _ ho) hz hl.tail)
  | @comma t _ _ _ h ih =>
    obtain ⟨us, rfl, hz⟩ := exists_left_of_suffix (x := [t]) hw h.suffix
    exact ih (opensComment_right _ _ ho) hz hl.tail
  | @raw b e ts' ps he hd h ih =>
    obtain ⟨us, rfl, hz⟩ := exists_left_of_suffix (x := b ++ [e]) (by simpa using hw) h.suffix
    have het := (isBlank_of_isCloseParen he).2.1
    have hps := ih (opensComment_right _ _ ho) hz (Lexed.suffix (a := b ++ [e]) (by simpa using hl))
    rw [List.append_assoc] at ho
    exact opensComment_append b
      (b := [e] ++ us) (by simp [het]) ho (opensComment_cons (.inl (by simp [het])) hps)

/-- A property that asks nothing of tokens without a dollar sign. A printer makes no others by
itself. -/
def Lax (P : Token → Prop) : Prop := ∀ t, '$' ∉ t.text → P t

theorem Lax.of_gap (hP : Lax P) (hgap : IsGap gap) : P gap := hP _ fun h ↦ by cases hgap.2.2 '$' h

theorem Lax.of_word (hP : Lax P) (hl : Lexed [t]) (hw : t.isWord = true) : P t :=
  hP _ fun h ↦ absurd (hl.word_chars hw '$' h) (by decide)

theorem Relaid.tokens (hP : Lax P) (h : Relaid z (ts ++ z) ps) (ht : ∀ t ∈ ts, P t) :
    ∀ t ∈ ps, P t := by
  generalize hw : ts ++ z = w at h
  induction h generalizing ts with
  | nil => exact nofun
  | @skip t _ _ _ h ih =>
    obtain ⟨us, rfl, hz⟩ := exists_left_of_suffix (x := [t]) hw h.suffix
    exact ih (fun u hu ↦ ht u (List.mem_append_right _ hu)) hz
  | pad _ hb _ _ ih =>
    refine List.forall_mem_cons.2 ⟨hP _ fun h ↦ ?_, ih ht hw⟩
    cases hb '$' h
  | @keep t _ _ _ _ _ _ h ih =>
    obtain ⟨us, rfl, hz⟩ := exists_left_of_suffix (x := [t]) hw h.suffix
    exact List.forall_mem_cons.2 ⟨ht t (by simp),
      ih (fun u hu ↦ ht u (List.mem_append_right _ hu)) hz⟩
  | @rewrite t u _ _ htk hu _ hl _ _ h ih =>
    obtain ⟨us, rfl, hz⟩ := exists_left_of_suffix (x := [t]) hw h.suffix
    exact List.forall_mem_cons.2 ⟨hP.of_word hl
      (hl.isWord_of_kind (hu ▸ Token.family_of_isTitle htk)),
      ih (fun u hu ↦ ht u (List.mem_append_right _ hu)) hz⟩
  | @comma t _ _ _ h ih =>
    obtain ⟨us, rfl, hz⟩ := exists_left_of_suffix (x := [t]) hw h.suffix
    exact ih (fun u hu ↦ ht u (List.mem_append_right _ hu)) hz
  | @raw b e _ _ _ _ h ih =>
    obtain ⟨us, rfl, hz⟩ := exists_left_of_suffix (x := b ++ [e]) (by simpa using hw) h.suffix
    have hps := ih (fun u hu ↦ ht u (List.mem_append_right _ hu)) hz
    refine List.forall_mem_append.2 ⟨fun u hu ↦ ht u (by simp [hu]),
      List.forall_mem_cons.2 ⟨ht e (by simp), hps⟩⟩

/-- Tokens of lines that other lines can follow, all of them with the property `P`. -/
structure IsBlock (P : Token → Prop) (ps : List Token) : Prop where
  tokens : ∀ t ∈ ps, P t
  lexed : Lexed ps
  ne_nil : ps ≠ []
  comment : ∀ t ∈ ps, t.kind ≠ .comment
  head : ∀ t ∈ ps.head?, t.isBlank = false
  last : ∀ t ∈ ps.getLast?, t.isBlank = false
  opener : opensComment ps = false

namespace IsBlock

theorem text_ne_nil (h : IsBlock P ps) : textOf ps ≠ [] := by
  obtain ⟨t, us, rfl⟩ := List.exists_cons_of_ne_nil h.ne_nil
  simp [h.lexed.text_ne_nil]

theorem solid (h : IsBlock P ps) : Solid (textOf ps) where
  head c hc := by
    obtain ⟨t, us, rfl⟩ := List.exists_cons_of_ne_nil h.ne_nil
    rw [textOf_cons, h.lexed.head_append] at hc
    have hb : t.kind ≠ .blank := by simpa [Token.isBlank] using h.head t rfl
    exact (Lexical.solid ⟨us, h.lexed⟩ hb (h.comment t List.mem_cons_self)).head c hc
  last c hc := by
    obtain ⟨us, t, rfl⟩ := (List.eq_nil_or_concat ps).resolve_left h.ne_nil
    have ht := h.lexed.lexical t (by simp)
    rw [List.concat_eq_append, textOf_append, List.getLast?_append, textOf_cons, textOf_nil,
      List.append_nil] at hc
    have hb : t.kind ≠ .blank := by simpa [Token.isBlank] using h.last t (by simp)
    cases e : t.text.getLast? with
    | none => exact absurd (List.getLast?_eq_none_iff.1 e) ht.text_ne_nil
    | some d =>
      rw [e] at hc
      exact (ht.solid hb (h.comment t (by simp))).last c (by rw [e]; exact hc)

theorem not_slash (h : Lexed b) (hh : ∀ t ∈ b.head?, t.isBlank = false) (hgap : IsGap gap) :
    Lexed (gap :: b) ∧
    (textOf (gap :: b)).head? ≠ some '*' ∧ gap.text ≠ ['/'] := by
  obtain ⟨k, g⟩ := gap
  obtain ⟨rfl, hne, hb⟩ := hgap
  obtain ⟨c, u, rfl⟩ := List.exists_cons_of_ne_nil hne
  have hc := hb c List.mem_cons_self
  refine ⟨h.blank_cons hh hne hb, ?_, ?_⟩ <;> rintro ⟨⟩ <;> cases hc

/-- Lines that start with a clause keyword or a conjunction follow others after a line break. -/
theorem append (hP : Lax P) (ha : IsBlock P a) (hb : IsBlock P b) (hw : ahead b = [])
    (hgap : IsGap gap) : IsBlock P (a ++ gap :: b) := by
  obtain ⟨hl, hstar, hslash⟩ := not_slash hb.lexed hb.head hgap
  refine ⟨?_, ?_, by simp, ?_, fun t ht ↦ ?_, fun t ht ↦ ?_, ?_⟩
  · exact List.forall_mem_append.2 ⟨ha.tokens, List.forall_mem_cons.2 ⟨hP.of_gap hgap, hb.tokens⟩⟩
  · refine ha.lexed.append hl (sealed_gap hgap b) ?_
      (fun t ht ↦ ⟨?_, ha.comment t (List.mem_of_getLast? ht)⟩)
      (slashFree_append ha.opener hl.slashFree hstar)
    · exact (ahead_blank hgap.isBlank b).trans hw
    · simpa [Token.isBlank] using ha.last t ht
  · simp only [List.forall_mem_append, List.forall_mem_cons]
    exact ⟨ha.comment, by simp [hgap.1], hb.comment⟩
  · obtain ⟨u, us, rfl⟩ := List.exists_cons_of_ne_nil ha.ne_nil
    exact ha.head t (by simpa using ht)
  · obtain ⟨u, us, rfl⟩ := List.exists_cons_of_ne_nil hb.ne_nil
    exact hb.last t (by simpa using ht)
  · exact opensComment_join ha.opener (opensComment_cons (.inl hslash) hb.opener) hstar

theorem good (h : IsBlock P ps) (hm : textOf ps ≠ [',']) : Good ps :=
  ⟨h.ne_nil, h.lexed, h.comment, h.solid, hm, h.head⟩

/-- What a printer makes of a part of a query. -/
theorem of_relaid (hP : Lax P) (ht : ∀ t ∈ ts, P t) (hp : Placed 0 ts)
    (ho : opensComment ts = false)
    (hr : ∀ {z vs us}, Ending z vs us → Relaid z (ts ++ vs) (ps ++ us)) (hne : ps ≠ [])
    (hh : ∀ t ∈ ps.head?, t.isBlank = false) : IsBlock P ps := by
  obtain ⟨z, hz, hc, hl⟩ := hp.lexed
  have hrel := hr (.nil hz)
  rw [List.append_nil] at hrel
  refine ⟨hrel.tokens hP ht, hrel.lexed hl, hne, ?_, hh, fun t ht ↦ ?_, hrel.opener hl ho⟩
  · exact hrel.comment (List.forall_mem_append.2 ⟨fun t ht ↦ (hp.tokens t ht).2.1, hc⟩)
  · -- a blank could not stand before another one
    have hspace : Ending z z [space] :=
      ⟨Relaid.nil.gap isGap_space nofun, sealed_gap isGap_space [], hz,
        ahead_blank isGap_space.isBlank []⟩
    have hlexed := (hr hspace).lexed hl
    obtain ⟨us, rfl⟩ := List.getLast?_eq_some_iff.1 ht
    rw [List.append_assoc] at hlexed
    rw [Bool.eq_false_iff]
    intro hb
    obtain ⟨k, u⟩ := t
    obtain rfl : k = .blank := by simpa [Token.isBlank] using hb
    have := (munch_blank_iff.1 (munch_of_lexed (Lexed.suffix hlexed))).2.2 ' ' rfl
    cases this

/-- A token that takes nothing of what follows a gap. -/
theorem cons_gap (hP : Lax P) (hb : IsBlock P b) (ht : Lexed [t]) (htP : P t) (hgap : IsGap gap)
    (hk : t.kind ≠ .blank ∧ t.kind ≠ .comment)
    (hw : t.isWord = true → leadingWords t.text ∈ fixedPhrases) : IsBlock P (t :: gap :: b) := by
  obtain ⟨hl, hstar, hslash⟩ := not_slash hb.lexed hb.head hgap
  have hs := sealed_gap hgap b
  refine ⟨List.forall_mem_cons.2 ⟨htP, List.forall_mem_cons.2 ⟨hP.of_gap hgap, hb.tokens⟩⟩,
    ht.before hl ⟨fun e ↦ absurd e hk.1, fun e ↦ ?_,
    fun e ↦ ⟨stops_name_of_delimited hs.1, .inl (hw e)⟩,
    fun _ ↦ .inl hs.stops_numeric, fun _ _ _ _ ↦ .inr (.inr hs.1)⟩, by simp, ?_, ?_, fun u hu ↦ ?_,
    opensComment_cons (.inr hstar) (opensComment_cons (.inl hslash) hb.opener)⟩
  · simp [isLineComment, hk.2] at e
  · simpa [hk.2, hgap.1] using hb.comment
  · rintro u ⟨⟩
    simpa [Token.isBlank] using hk.1
  · obtain ⟨v, us, rfl⟩ := List.exists_cons_of_ne_nil hb.ne_nil
    exact hb.last u (by simpa using hu)

theorem singleton (ht : Lexed [t]) (htP : P t) (hk : t.kind ≠ .blank ∧ t.kind ≠ .comment) :
    IsBlock P [t] :=
  ⟨by simpa using htP, ht, by simp, by simpa using hk.2, by simpa [Token.isBlank] using hk.1, by simpa [Token.isBlank] using hk.1,
    opensComment_cons (.inr (by simp)) rfl⟩

end IsBlock

end QueryTemplate
