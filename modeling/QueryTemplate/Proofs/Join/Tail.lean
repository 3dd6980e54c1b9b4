import QueryTemplate.Proofs.Join.Trailer
namespace QueryTemplate

open Token Fragment Grammar

variable {f : Fragment} {t u o e : Token} {w x b ts us vs gs hs : List Token}
    {xs : List (List Token)}

theorem exists_commaList (h : inked ts = commaList x xs) :
    ∃ y ys, ts = commaList y ys ∧ (y :: ys).map inked = x :: xs := by
  induction xs generalizing ts x with
  | nil => exact ⟨ts, [], (List.append_nil ts).symm, by simpa [commaList] using h⟩
  | cons v xs ih =>
    rw [commaList_cons] at h
    obtain ⟨a, b, rfl, ha, hb⟩ := exists_of_inked_eq_append h
    obtain ⟨gs, c, rfl, hg, -, hc⟩ := exists_of_inked_eq_cons hb
    obtain ⟨y, ys, rfl, hy⟩ := ih hc
    have hgs : inked gs = [] := by simpa [inked] using hg
    exact ⟨a ++ gs, y :: ys,
      by simp [commaList], by rw [List.map_cons, hy, inked_append, ha, hgs, List.append_nil]⟩

/-- Tokens, each after a space. -/
def spellEach (w : List Token) : List Token := (w.map fun t ↦ [t]).flatMap spell

theorem flatten_singletons (w : List Token) : (w.map fun t ↦ [t]).flatten = w := by
  rw [← List.flatMap_def, List.flatMap_singleton']

theorem inked_spellEach (w : List Token) : inked (spellEach w) = inked w := by
  rw [spellEach, inked_flatMap_spell, flatten_singletons]

theorem Lays.spellEach (h : Material w) : Lays w (spellEach w) := by
  have hm : ∀ r ∈ w.map fun t ↦ [t], Material r := Material.of_flatten (by rwa [flatten_singletons])
  have hs := Lays.spells hm
  rwa [flatten_singletons] at hs

theorem textOf_spellEach (w : List Token) :
    textOf (spellEach w) = ((inked w).map (·.text)).flatMap (' ' :: ·) := by
  have htext : ∀ t : Token, (({} : Fragment).pushToken t).text = t.text := fun t ↦ by
    rw [text_pushToken, spacing_of_empty rfl]
    rfl
  rw [spellEach, textOf_flatMap_spell]
  refine congrArg (List.flatMap _) ?_
  induction w with
  | nil => rfl
  | cons t w ih =>
    rw [List.map_cons, List.filterMap_cons, ih]
    cases hb : t.isBlank <;> simp [itemOf?, inked, hb, written, htext]

theorem Firm.spells (h : Firm xs.flatten) : Firm (xs.flatMap QueryTemplate.spell) := by
  intro t ht
  obtain ⟨x, hx, ht⟩ := List.mem_flatMap.1 ht
  exact Firm.spell (h.subset fun u hu ↦ List.mem_flatten.2 ⟨x, hx, hu⟩) t ht

theorem Firm.phrased (h : Firm ts) (hi : inked ts ≠ []) : Phrased (written ts).text := by
  obtain ⟨q, hq⟩ := endsIn_extend endsIn_empty h
  refine ⟨hq.solid, fun e ↦ ?_, _, (tallied_extend tallied_empty h).text⟩
  have htake := h.take?_written
  rw [written_eq] at e htake
  rw [hq.take? (clean_extend clean_empty ts), if_pos e, itemOf?, if_neg hi] at htake
  cases htake

theorem Firm.phrased_items (h : Firm xs.flatten) : ∀ y ∈ xs.filterMap itemOf?, Phrased y := by
  intro y hy
  obtain ⟨x, hx, he⟩ := List.mem_filterMap.1 hy
  rw [itemOf?] at he
  split at he
  · cases he
  · obtain rfl := Option.some.inj he
    exact Firm.phrased (h.subset fun t ht ↦ List.mem_flatten.2 ⟨x, hx, ht⟩) ‹_›

theorem AreWords.of_inked (h : AreWords w) (he : inked ts = inked w) : AreWords ts := by
  intro t ht
  cases hb : t.isBlank with
  | true => exact .inl rfl
  | false =>
    have hm : t ∈ inked w := he ▸ List.mem_filter.2 ⟨ht, by simp [hb]⟩
    exact .inr ((h t (List.mem_filter.1 hm).1).resolve_left (by simp [hb]))

theorem AreWords.phrased (hw : AreWords w) (h : Firm w) :
    ∀ a ∈ (inked w).map (·.text), Phrased a := by
  intro a ha
  obtain ⟨t, ht, rfl⟩ := List.mem_map.1 ha
  obtain ⟨hm, hb⟩ := List.mem_filter.1 ht
  have hk := (hw t hm).resolve_left (by simpa using hb)
  exact .of_lexical (h t hm).1 (by simp [hk]) (by simp [hk])

/-- The first token is a word. -/
def WordFirst (ts : List Token) : Prop :=
  ∀ t ∈ (inked ts).head?, Lexical t ∧ family t.kind = .identifier

theorem wordFirst_cons (hl : Lexical t) (hk : family t.kind = .identifier) (ts : List Token) :
    WordFirst (t :: ts) := by
  have hb : t.isBlank = false := by
    rw [Token.isBlank, decide_eq_false_iff_not]
    rintro e
    rw [e] at hk
    cases hk
  intro u hu
  rw [inked_cons hb] at hu
  obtain rfl : t = u := by simpa using hu
  exact ⟨hl, hk⟩

theorem Halts.wordFirst (h : Halts us) : WordFirst us := by
  intro t ht
  cases e : inked us with
  | nil => simp [e] at ht
  | cons v vs =>
    obtain ⟨gs, ws, rfl, hg, hb, -⟩ := exists_of_inked_eq_cons e
    obtain rfl : v = t := by simpa [e] using ht
    rw [Halts, List.dropWhile_append_of_pos hg, List.dropWhile_cons_of_neg (by simp [hb])] at h
    obtain ⟨hk, hl⟩ := h v rfl
    simp only [isBreak, Bool.or_eq_true, decide_eq_true_eq] at hk
    rcases hk with hk | hk <;> exact ⟨hl, by rw [hk]; rfl⟩

theorem WordFirst.append (ha : WordFirst ts) (hb : WordFirst us) : WordFirst (ts ++ us) := by
  intro t ht
  rw [inked_append, List.head?_append] at ht
  cases e : (inked ts).head? with
  | none => exact hb t (by simpa [e] using ht)
  | some v => exact ha t (by simpa [e] using ht)

theorem WordFirst.endsName (h : WordFirst ts) : Join.EndsName ts := by
  cases e : inked ts with
  | nil =>
    intro t ht
    rw [List.dropWhile_eq_nil_iff.2 (isBlank_of_inked e)] at ht
    cases ht
  | cons t vs =>
    obtain ⟨hl, hk⟩ := h t (by rw [e]; rfl)
    obtain ⟨gs, ws, rfl, hg, -, -⟩ := exists_of_inked_eq_cons e
    exact (Join.endsName_cons hl hk ws).blanks hg

theorem AreWords.wordFirst (hw : AreWords w) (hf : Firm w) : WordFirst w := by
  intro t ht
  obtain ⟨hm, hb⟩ := List.mem_filter.1 (List.mem_of_mem_head? ht)
  have hk := (hw t hm).resolve_left (by simpa using hb)
  exact ⟨(hf t hm).1, by rw [hk]; rfl⟩

/-- The tokens `ts` after the source of a join are read as the trailer `x`, and so are the tokens
`ps` that it is printed as. -/
structure Completes (ts ps : List Token) (x : Trailer) : Prop where
  old : ReadsTrailer ts x
  new : ReadsTrailer ps x
  lays : Lays ts ps
  text : textOf ps = x.text
  printable : x.Printable
  first : WordFirst ts ∧ WordFirst ps

theorem completes_words (hw : AreWords w) (hm : Material w) :
    Completes w (spellEach w) { aliases := (inked w).map (·.text) } := by
  have hs := hw.of_inked (inked_spellEach w)
  have hnew := readsTrailer_words hs
  have hfirst := hw.wordFirst hm.firm
  rw [inked_spellEach] at hnew
  exact ⟨readsTrailer_words hw, hnew, .spellEach hm,
    by simp [textOf_spellEach, Trailer.text], ⟨hw.phrased hm.firm, nofun, nofun⟩, hfirst,
    by rwa [WordFirst, inked_spellEach]⟩

/-- The printed form of the keyword before a constraint. -/
def constraintTitle (w : Text) : Token := ⟨.joinConstraint, w⟩

/-- Words before the keyword of a constraint, as they are printed. -/
def led (w : List Token) (k : Text) (ts : List Token) : List Token :=
  spellEach w ++ [Token.space] ++ constraintTitle k :: ts

theorem inked_words_led (w : List Token) : inked (spellEach w ++ [Token.space]) = inked w := by
  rw [inked_append, inked_spellEach]
  exact List.append_nil _

theorem textOf_led (w : List Token) (k : Text) (ts : List Token) :
    textOf (led w k ts) = ((inked w).map (·.text)).flatMap (' ' :: ·) ++ ' ' ::
      (k ++ textOf ts) := by
  simp [led, textOf_spellEach, Token.space, constraintTitle]

theorem lays_led {k : Text} (hm : Material (w ++ u :: ts)) (hu : u.kind = .joinConstraint)
    (hk : u.keyword = (constraintTitle k).keyword) (hx : Lexed [constraintTitle k])
    (ht : Lays ts us) : Lays (w ++ u :: ts) (led w k us) := by
  have htitle := Lays.title (hm.right.firm u List.mem_cons_self).1
    (by simp [Token.isTitle, hu]) hx hu.symm hk.symm isGap_space
  have h := (Lays.spellEach hm.left).append (htitle.append ht)
  rwa [led, List.append_assoc]

/-- A trailer with a keyword is read and printed with it. -/
theorem completes_led {k : Text} {x : Trailer} (hw : AreWords w) (hm : Material (w ++ u :: ts))
    (hu : u.kind = .joinConstraint ∧ u.keyword = (constraintTitle k).keyword)
    (hx : Lexed [constraintTitle k]) (ho : ReadsTrailer (w ++ u :: ts) x)
    (hn : ReadsTrailer (led w k us) x) (ht : Lays ts us) (htext : x.text = textOf (led w k us))
    (hp : x.Printable) : Completes (w ++ u :: ts) (led w k us) x where
  old := ho
  new := hn
  lays := lays_led hm hu.1 hu.2 hx ht
  text := htext.symm
  printable := hp
  first := by
    have hfirst := hw.wordFirst hm.left.firm
    refine ⟨hfirst.append (wordFirst_cons (hm.right.firm u List.mem_cons_self).1
      (by rw [hu.1]; rfl) ts), ?_⟩
    exact WordFirst.append (by rwa [WordFirst, inked_words_led]) (wordFirst_cons ⟨[], hx⟩ rfl us)

theorem completes_on (hw : AreWords w) (hm : Material (w ++ u :: ts))
    (hu : u.kind = .joinConstraint ∧ u.keyword = "on") (hp : IsExpression (inked ts)) :
    Completes (w ++ u :: ts) (led w "ON" ((conjuncts ts).flatMap spell))
      { aliases := (inked w).map (·.text), predicates := (conjuncts ts).filterMap itemOf? } := by
  have hts := hm.right.tail
  have hpieces : Material (conjuncts ts).flatten := by rwa [flatten_conjuncts]
  have hink : inked ((conjuncts ts).flatMap spell) = inked ts := by
    rw [inked_flatMap_spell, flatten_conjuncts]
  have hlay : Lays ts ((conjuncts ts).flatMap spell) := by
    have h := Lays.spells hpieces.of_flatten
    rwa [flatten_conjuncts] at h
  have hnew := readsTrailer_on (hw.of_inked (inked_words_led w))
    (u := constraintTitle "ON") (by decide)
    (IsPhrase.of_inked (by rw [hink]; exact hp.2)) hpieces.firm.spells (by rw [hink]; exact hp.1)
  rw [inked_words_led, conjuncts_texts_congr hink] at hnew
  refine completes_led hw hm hu (by decide)
    (readsTrailer_on hw hu hp.2.of_inked hts.firm hp.1) hnew hlay ?_
    ⟨hw.phrased hm.left.firm, nofun, hpieces.firm.phrased_items⟩
  rw [textOf_led, textOf_flatMap_spell, Trailer.text, if_pos rfl,
    if_neg (conjuncts_texts_ne_nil hp.1), List.append_nil]
  rfl

/-- A list is printed with a space before each expression. -/
theorem lays_commaList (hm : Material (commaList x xs)) :
    Lays (commaList x xs) (commaList (spell x) (xs.map spell)) := by
  induction xs generalizing x with
  | nil => simpa [commaList] using Lays.spell (by simpa [commaList] using hm)
  | cons y xs ih =>
    rw [commaList_cons] at hm
    rw [List.map_cons, commaList_cons, commaList_cons]
    exact (Lays.spell hm.left).append (Lays.comma.append (ih hm.right.right))

theorem textOf_spell_ink (h : inked ts ≠ []) : textOf (spell ts) = ' ' :: (written ts).text := by
  simp [textOf_spell, itemOf?, h]

theorem textOf_commaList_spell (h : ∀ y ∈ xs, inked y ≠ []) (x : List Token) :
    textOf (commaList x (xs.map spell)) =
      Text.join ", " (textOf x :: xs.map fun y ↦ (written y).text) := by
  rw [join_cons, commaList, textOf_append]
  refine congrArg _ ?_
  induction xs with
  | nil => rfl
  | cons y xs ih =>
    obtain ⟨hy, h⟩ := List.forall_mem_cons.1 h
    rw [List.map_cons, List.map_cons, List.flatMap_cons, List.flatMap_cons, textOf_append, ih h,
      textOf_cons, textOf_spell_ink hy]
    rfl

namespace AreColumns

variable {cs : List Token}

theorem of_inked (hf : Firm xs.flatten) (hk : ∀ c ∈ cs, c.kind = .identifier)
    (h : xs.map inked = cs.map fun c ↦ [c]) :
    AreColumns cs xs := by
  induction xs generalizing cs with
  | nil =>
    obtain rfl : cs = [] := by simpa using h.symm
    exact .nil
  | cons x xs ih =>
    cases cs with
    | nil => cases h
    | cons c cs =>
      obtain ⟨hc, hks⟩ := List.forall_mem_cons.1 hk
      obtain ⟨hx, h⟩ := List.cons.inj h
      rw [List.flatten_cons] at hf
      exact .cons ⟨hx, hc, hf.subset (List.subset_append_left _ _)⟩
        (ih (hf.subset (List.subset_append_right _ _)) hks h)

theorem spell (h : AreColumns cs xs) : AreColumns cs (xs.map QueryTemplate.spell) := by
  induction h with
  | nil => exact .nil
  | cons hc _ ih => exact .cons ⟨(inked_spell _).trans hc.ink, hc.kind, hc.firm.spell⟩ ih

theorem written (h : AreColumns cs xs) :
    (xs.map fun y ↦ (written y).text) = cs.map (·.text) ∧ ∀ y ∈ xs, inked y ≠ [] := by
  induction h with
  | nil => exact ⟨rfl, nofun⟩
  | cons hc _ ih =>
    exact ⟨by rw [List.map_cons, List.map_cons, hc.written, ih.1], List.forall_mem_cons.2 ⟨by simp [hc.ink], ih.2⟩⟩

end AreColumns

theorem IsColumn.woven {c : Token} (h : IsColumn c x) (ho : o.isOpenParen = true) :
    textOf (woven (Fragment.pushToken o {}) x) = c.text := by
  have hb : c.isBlank = false := by simp [Token.isBlank, h.kind]
  have htext : (Fragment.pushToken o {}).text = ['('] := by
    rw [text_pushToken, spacing_of_empty rfl]
    exact (isBlank_of_isOpenParen ho).2.1
  have hspace : spacing (Fragment.pushToken o {}) c = [] := by
    rw [spacing, htext]
    rfl
  have hx := text_extend (Fragment.pushToken o {}) x
  have hink : inked x = inked [c] := h.ink.trans (inked_cons hb []).symm
  rw [extend_congr hink, extend_cons hb, extend_nil, text_pushToken, hspace] at hx
  simpa using hx.symm

theorem lays_columns (hm : Material (gs ++ o :: (commaList x xs ++ e :: vs)))
    (hg : ∀ g ∈ gs, g.isBlank = true) (ho : o.isOpenParen = true) (he : e.isCloseParen = true)
    (hv : ∀ v ∈ vs, v.isBlank = true) : Lays (gs ++ o :: (commaList x xs ++ e :: vs))
      (Token.space :: o :: (commaList (woven (Fragment.pushToken o {}) x) (xs.map spell) ++
          [e])) := by
  have hb := (isBlank_of_isOpenParen ho).2.2.1
  have hold : o :: (commaList x xs ++ e :: vs) = commaList (o :: x) xs ++ ([e] ++ vs) := by
    simp [commaList]
  have hnew : Token.space :: o ::
    (commaList (woven (Fragment.pushToken o {}) x) (xs.map spell) ++ [e]) =
      commaList (spell (o :: x)) (xs.map spell) ++ [e] := by
    rw [spell_ink (by simp [inked_cons hb]), woven_cons hb, spacing_of_empty rfl]
    rfl
  rw [hold] at hm ⊢
  rw [hnew]
  exact ((lays_commaList hm.right.left).append ((Lays.closing he).append (.skip hv))).blanks hg

theorem completes_using {cs : List Token} (hw : AreWords w)
    (hm : Material (w ++ u :: (gs ++ o :: (commaList x xs ++ e :: vs))))
    (hu : u.kind = .joinConstraint ∧ u.keyword = "using") (hg : ∀ g ∈ gs, g.isBlank = true)
    (ho : o.isOpenParen = true) (h : AreColumns cs (x :: xs)) (he : e.isCloseParen = true)
    (hv : ∀ v ∈ vs, v.isBlank = true) :
    Completes (w ++ u :: (gs ++ o :: (commaList x xs ++ e :: vs)))
      (led w "USING" (Token.space :: o ::
          (commaList (woven (Fragment.pushToken o {}) x) (xs.map spell) ++ [e])))
      { aliases := (inked w).map (·.text), columns := cs.map (·.text) } := by
  cases h with
  | @cons c _ cs _ hc hcs =>
    have hcolumns : AreColumns (c :: cs) (woven (Fragment.pushToken o {}) x :: xs.map spell) :=
      .cons ⟨(inked_woven _ _).trans hc.ink, hc.kind, hc.firm.woven _⟩ (AreColumns.spell hcs)
    have hnew := readsTrailer_using
      (u := constraintTitle "USING") (hw.of_inked (inked_words_led w)) (by decide)
      isBlank_of_space ho hcolumns he (List.forall_mem_nil _)
    rw [inked_words_led] at hnew
    refine completes_led hw hm hu (by decide)
      (readsTrailer_using hw hu hg ho (.cons hc hcs) he hv) hnew
      (lays_columns hm.right.tail hg ho he hv) ?_ ⟨hw.phrased hm.left.firm,
        AreColumns.phrased (.cons hc hcs), nofun⟩
    obtain ⟨hcells, hink⟩ := AreColumns.written hcs
    have htext := textOf_commaList_spell hink (woven (Fragment.pushToken o {}) x)
    rw [hc.woven ho, hcells] at htext
    rw [textOf_led, textOf_cons, textOf_cons, textOf_append, htext, (isBlank_of_isOpenParen ho).2.1,
      textOf_cons, (isBlank_of_isCloseParen he).2.1, Trailer.text, if_neg (by simp), if_pos rfl,
      usingText_eq]
    simp [Token.space]

theorem IsAlias.areWords (h : IsAlias (inked ts)) : AreWords ts := by
  have hink : ∀ t ∈ inked ts, t.kind = .identifier := by
    generalize inked ts = us at h
    cases h with
    | none => exact nofun
    | bare ht => simpa using ht
    | named ha ht => simpa using ⟨ha.1, ht⟩
  intro t ht
  cases hb : t.isBlank with
  | true => exact .inl rfl
  | false => exact .inr (hink t (List.mem_filter.2 ⟨ht, by simp [hb]⟩))

theorem AreWords.append (ha : AreWords w) (hg : ∀ g ∈ gs, g.isBlank = true) :
    AreWords (w ++ gs) := by
  intro t ht
  rcases List.mem_append.1 ht with ht | ht
  · exact ha t ht
  · exact .inl (hg t ht)

theorem exists_columns {cs : List Token} (hc : IsColumns cs) (h : inked ts = cs) (hf : Firm ts) :
    ∃ ks x xs, ts = commaList x xs ∧ AreColumns ks (x :: xs) := by
  obtain ⟨k, ks, rfl, hk⟩ := hc
  have hlist : chain comma k ks = commaList [k] (ks.map fun c ↦ [c]) := by
    simp [chain, commaList, List.flatMap_map]
  rw [hlist] at h
  obtain ⟨x, xs, rfl, hx⟩ := exists_commaList h
  refine ⟨k :: ks, x, xs, rfl, .of_inked (hf.subset fun t ht ↦ ?_) hk (by simpa using hx)⟩
  rw [List.flatten_cons, List.mem_append, List.mem_flatten] at ht
  rw [commaList, List.mem_append, List.mem_flatMap]
  rcases ht with ht | ⟨y, hy, ht⟩
  · exact .inl ht
  · exact .inr ⟨y, hy, List.mem_cons_of_mem _ ht⟩

/-- Whatever stands after the source of a join is read, and printed so that it is read as the same.
-/
theorem exists_completes (h : IsTail (inked ts)) (hm : Material ts) :
    ∃ ps x, Completes ts ps x := by
  obtain ⟨a, b, hab, ha, hb⟩ := h
  obtain ⟨w, v, rfl, rfl, hv⟩ := exists_of_inked_eq_append hab
  have hw := ha.areWords
  cases hb with
  | none => exact ⟨_, _, completes_words (hw.append (isBlank_of_inked hv)) hm⟩
  | @«using» u o e _ hu ho hc he =>
    obtain ⟨gs, vs, rfl, hg, -, hv⟩ := exists_of_inked_eq_cons hv
    obtain ⟨hs, vs, rfl, hh, -, hv⟩ := exists_of_inked_eq_cons hv
    obtain ⟨body, vs, rfl, hbody, hv⟩ := exists_of_inked_eq_append hv
    obtain ⟨ks, vs, rfl, hk, -, hv⟩ := exists_of_inked_eq_cons hv
    have hfirm : Firm (body ++ ks) := hm.firm.subset fun t ht ↦ by
      rcases List.mem_append.1 ht with ht | ht <;> simp [ht]
    have hki : inked ks = [] := by simpa [inked] using hk
    obtain ⟨cs, x, xs, hx, hcs⟩ :=
      exists_columns hc (by rw [inked_append, hbody, hki, List.append_nil]) hfirm
    have hsplit : w ++ (gs ++ u :: (hs ++ o :: (body ++ (ks ++ e :: vs)))) =
        w ++ gs ++ u :: (hs ++ o :: (commaList x xs ++ e :: vs)) := by
      rw [← hx]
      simp
    rw [hsplit] at hm ⊢
    exact ⟨_, _, completes_using (hw.append hg) hm hu hh ho hcs he (isBlank_of_inked hv)⟩
  | on hu hp =>
    obtain ⟨gs, vs, rfl, hg, -, rfl⟩ := exists_of_inked_eq_cons hv
    rw [← List.append_assoc] at hm ⊢
    exact ⟨_, _, completes_on (hw.append hg) hm hu hp⟩

end QueryTemplate
