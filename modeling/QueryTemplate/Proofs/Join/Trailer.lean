import QueryTemplate.Proofs.Join.Line
import QueryTemplate.Proofs.Join.Reader
import Mathlib.Data.List.DropRight
import Mathlib.Data.List.TakeWhile
namespace QueryTemplate

open Token Fragment Grammar

variable {f : Fragment} {t u o c : Token} {w x ts us vs gs : List Token} {xs : List (List Token)}
    {d : Nat}

/-- The predicates in some tokens: they are cut before each `AND` and `OR` outside of parentheses.
-/
def conjuncts (ts : List Token) : List (List Token) := piecesFrom (.slot .condition) [] 0 ts

theorem conjuncts_eq (ts : List Token) : conjuncts ts = (sections isConjunction 0 ts).lead ::
    (sections isConjunction 0 ts).parts.map fun p ↦ p.1 :: p.2 := rfl

theorem flatten_conjuncts (ts : List Token) : (conjuncts ts).flatten = ts := by
  have h := tokens_sections isConjunction 0 ts
  rwa [Sections.tokens, List.flatMap_def] at h

theorem conjuncts_texts_congr (h : inked ts = inked us) :
    (conjuncts ts).filterMap itemOf? = (conjuncts us).filterMap itemOf? := by
  have hblank : ∀ t, isConjunction t = true → t.isBlank = false := by
    intro t ht
    simp only [isConjunction, decide_eq_true_eq] at ht
    simp [Token.isBlank, ht]
  have key : ∀ ts, (conjuncts ts).filterMap itemOf? = (conjuncts (inked ts)).filterMap itemOf? := by
    intro ts
    have hmap : conjuncts (inked ts) = (conjuncts ts).map inked := by
      rw [conjuncts_eq, conjuncts_eq, sections_inked hblank, List.map_cons, List.map_map,
        List.map_map]
      refine congrArg _ (List.map_congr_left fun p hp ↦ ?_)
      exact (inked_cons (hblank _ (heading_of_mem_parts ts p hp)) p.2).symm
    rw [hmap, List.filterMap_map]
    exact List.filterMap_congr fun r _ ↦ itemOf?_congr (inked_inked r).symm
  rw [key ts, key us, h]

namespace Join

theorem conditions_halt (hf : f.isBalanced = true) (hu : Halts us) :
    conditions [] f us = .ok (f.take?.toList, us.dropWhile isBlank) := by
  induction us with
  | nil => rfl
  | cons t us ih =>
    rw [conditions]
    cases hb : t.isBlank with
    | true =>
      rw [Halts, List.dropWhile_cons_of_pos hb] at hu
      rw [if_pos rfl, ih hu, List.dropWhile_cons_of_pos hb]
    | false =>
      rw [Halts, List.dropWhile_cons_of_neg (by simp [hb])] at hu
      have ht := (hu t rfl).1
      rw [isBreak] at ht
      rw [if_neg (by simp), hf, ht, if_pos (by simp), List.dropWhile_cons_of_neg (by simp [hb])]

theorem conditions_sections (hf : f.depth = d) (hd : depthRun d ts = some 0)
    (hc : Covered isBreak d ts) (ht : Firm ts) (hu : Halts us) :
    conditions [] f (ts ++ us) = .ok ((f.extend (sections isConjunction d ts).lead).take?.toList ++
      (sections isConjunction d ts).parts.map (fun p ↦ (written (p.1 :: p.2)).text),
          us.dropWhile isBlank) := by
  induction ts generalizing f d with
  | nil =>
    obtain rfl := Option.some.inj hd
    rw [List.nil_append, conditions_halt ((isBalanced_iff hf).2 rfl) hu]
    exact congrArg (fun xs ↦ Except.ok (xs, us.dropWhile isBlank)) (List.append_nil _).symm
  | cons t ts ih =>
    obtain ⟨⟨hl, hs⟩, ht⟩ := List.forall_mem_cons.1 ht
    obtain ⟨hdt, hft⟩ := depthRun_cons (f := f) hd
    have hct := (covered_cons.1 hc).2
    have hbreak := and_eq_false_of_covered hf hc
    rw [isBreak] at hbreak
    rw [List.cons_append, conditions]
    cases hb : t.isBlank with
    | true =>
      have hk : t.kind = .blank := by simpa [Token.isBlank] using hb
      have ha : standing d t = d ∧ after d t = d := by
        simp [after, standing, isOpenParen, isCloseParen, hk]
      rw [ha.1, ha.2] at hdt hct
      have hsec : sections isConjunction d (t :: ts) =
          ⟨t :: (sections isConjunction d ts).lead, (sections isConjunction d ts).parts⟩ := by
        rw [sections, ha.1, ha.2]
        simp [isConjunction, hk]
      rw [if_pos rfl, ih hf hdt hct ht, hsec, extend_blank hb]
    | false =>
      rw [if_neg (by simp), hbreak, if_neg (by simp)]
      by_cases hj : t.kind = .conjunction ∧ f.isBalanced = true
      · obtain ⟨hk, hbal⟩ := hj
        obtain rfl := (isBalanced_iff hf).1 hbal
        have ha : standing 0 t = 0 ∧ after 0 t = 0 := by
          simp [after, standing, isOpenParen, isCloseParen, hk]
        rw [ha.1, ha.2] at hdt hct
        have hdepth : (Fragment.pushToken t {}).depth = 0 := by
          simp [Fragment.pushToken, isOpenParen, isCloseParen, hk]
        have hfirm : Firm (t :: (sections isConjunction 0 ts).lead) := by
          refine List.forall_mem_cons.2 ⟨⟨hl, hs⟩, fun u hu ↦ ht u ?_⟩
          have hsplit := tokens_sections isConjunction 0 ts
          rw [← hsplit]
          exact List.mem_append_left _ hu
        have htake : ((Fragment.pushToken t {}).extend (sections isConjunction 0 ts).lead).take? =
            some (written (t :: (sections isConjunction 0 ts).lead)).text := by
          rw [← extend_cons hb, ← written_eq, hfirm.take?_written, itemOf?, inked_cons hb,
            if_neg (by simp)]
        rw [if_pos (by simp [hk, hbal]), ih hdepth hdt hct ht, htake,
          sections_cons_heading ha.1 (by simp [isConjunction, hk]), ha.2]
        rfl
      · have hheading : (standing d t = 0 && isConjunction t : Bool) = false := by
          rw [Bool.and_eq_false_iff]
          by_cases hk : t.kind = .conjunction
          · left
            have hs : standing d t = d := by simp [standing, isCloseParen, hk]
            have hbal : f.isBalanced ≠ true := fun h ↦ hj ⟨hk, h⟩
            rw [hs, decide_eq_false_iff_not]
            exact mt (isBalanced_iff hf).2 hbal
          · exact .inr (by simp [isConjunction, hk])
        have hsec : sections isConjunction d (t :: ts) =
            ⟨t :: (sections isConjunction (after (standing d t) t) ts).lead,
                (sections isConjunction (after (standing d t) t) ts).parts⟩ := by
          rw [sections, hheading]
          rfl
        rw [if_neg (by simpa [and_comm] using hj), if_neg hs.1, ih (hft hf) hdt hct ht, hsec,
          extend_cons hb]

/-- The predicates after `ON`. -/
theorem conditions_conjuncts (hp : IsPhrase ts) (ht : Firm ts) (hu : Halts us) :
    conditions [] {} (ts ++ us) = .ok ((conjuncts ts).filterMap itemOf?, us.dropWhile isBlank) := by
  have hc : Covered isBreak 0 ts := hp.2.mono fun t h ↦ by rw [endsExpression, h, Bool.true_or]
  have hfirm : Firm (conjuncts ts).flatten := by rwa [flatten_conjuncts]
  rw [conjuncts_eq, List.flatten_cons] at hfirm
  have hlead := Firm.take?_written (hfirm.subset (List.subset_append_left _ _))
  have hparts : ((sections isConjunction 0 ts).parts.map fun p ↦ p.1 :: p.2).filterMap itemOf? =
      (sections isConjunction 0 ts).parts.map fun p ↦ (written (p.1 :: p.2)).text := by
    rw [List.filterMap_map]
    refine List.filterMap_eq_map_iff_forall_eq_some.2 fun p hp ↦ ?_
    have hk : p.1.kind = .conjunction := by simpa [isConjunction] using heading_of_mem_parts ts p hp
    simp [itemOf?, inked_cons (show p.1.isBlank = false by simp [Token.isBlank, hk])]
  rw [conditions_sections rfl hp.1 hc ht hu, ← written_eq, hlead, conjuncts_eq, List.filterMap_cons,
    hparts]
  cases itemOf? (sections isConjunction 0 ts).lead <;> rfl

theorem aliasWords_blanks (hg : ∀ g ∈ gs, g.isBlank = true) (ts : List Token) :
    aliasWords [] (gs ++ ts) = aliasWords [] ts := by
  induction gs with
  | nil => rfl
  | cons g gs ih =>
    obtain ⟨hg, hgs⟩ := List.forall_mem_cons.1 hg
    rw [List.cons_append, aliasWords, if_pos hg, ih hgs]

theorem aliasWords_dropWhile (ts : List Token) :
    aliasWords [] (ts.dropWhile isBlank) = aliasWords [] ts := by
  have h := aliasWords_blanks (List.all_eq_true.1 (List.all_takeWhile (p := isBlank) (l := ts)))
    (ts.dropWhile isBlank)
  rwa [List.takeWhile_append_dropWhile, eq_comm] at h

theorem aliasWords_halt (hu : Halts us) :
    aliasWords [] us = .ok (([], none), us.dropWhile isBlank) := by
  rw [← aliasWords_dropWhile]
  cases e : us.dropWhile isBlank with
  | nil => rfl
  | cons t vs =>
    rw [Halts, e] at hu
    have ht := (hu t rfl).1
    simp only [isBreak, Bool.or_eq_true, decide_eq_true_eq] at ht
    rw [aliasWords]
    rcases ht with ht | ht <;> simp [Token.isBlank, ht]

theorem aliasWords_words (hw : ∀ t ∈ w, t.isBlank = true ∨ t.kind = .identifier) (us : List Token) :
    aliasWords [] (w ++ us) = (aliasWords [] us).map fun p ↦
      (((inked w).map (·.text) ++ p.1.1, p.1.2), p.2) := by
  induction w with
  | nil =>
    rw [List.nil_append]
    cases aliasWords [] us <;> rfl
  | cons t w ih =>
    obtain ⟨ht, hw⟩ := List.forall_mem_cons.1 hw
    rw [List.cons_append, aliasWords, ih hw]
    cases hb : t.isBlank with
    | true => rw [if_pos rfl, inked_cons_blank hb]
    | false =>
      have hk : t.kind = .identifier := ht.resolve_left (by simp [hb])
      rw [inked_cons hb, if_neg (by simp), if_neg (by simp [hk]), if_neg (by simp [hk, isComma])]
      cases aliasWords [] us <;> rfl

end Join

theorem splitOutside_commaList (h : ∀ y ∈ x :: xs, Balanced y ∧ Covered isComma 0 y) :
    splitOutside isComma (commaList x xs) = x :: xs := by
  induction xs generalizing x with
  | nil =>
    rw [commaList, List.flatMap_nil, List.append_nil]
    exact splitOutside_of_covered (h x List.mem_cons_self).2
  | cons y xs ih =>
    obtain ⟨⟨hb, hc⟩, h⟩ := List.forall_mem_cons.1 h
    have hcomma : standing 0 comma = 0 ∧ after 0 comma = 0 ∧ comma.isComma = true := by decide
    rw [commaList_cons, List.singleton_append, splitOutside_append hc (depthAfter_of_depthRun hb),
      splitOutside_cons_heading hcomma.1 hcomma.2.1 hcomma.2.2, ih h]
    simp

theorem balanced_commaList (h : ∀ y ∈ x :: xs, Balanced y) : Balanced (commaList x xs) := by
  induction xs generalizing x with
  | nil => simpa [commaList] using h
  | cons y xs ih =>
    obtain ⟨hx, h⟩ := List.forall_mem_cons.1 h
    have hcomma : ∀ ts, depthRun 0 (comma :: ts) = depthRun 0 ts := fun _ ↦ rfl
    rw [Balanced, commaList_cons, List.singleton_append, depthRun_append, hx, Option.bind_some, hcomma]
    exact ih h

theorem trim_ne_nil {s : Text} {a : Char} (hm : a ∈ s) (ha : Text.isSpace a = false) :
    Text.trim s ≠ [] := by
  rw [Text.trim, Text.trimStart, Ne, List.dropWhile_eq_nil_iff]
  intro h
  rw [h a (mem_trimEnd hm ha)] at ha
  cases ha

/-- An identifier, perhaps with blanks around it. -/
structure IsColumn (c : Token) (ts : List Token) : Prop where
  ink : inked ts = [c]
  kind : c.kind = .identifier
  firm : Firm ts

namespace IsColumn

theorem mem (h : IsColumn c x) : c ∈ x := List.mem_of_mem_filter (h.ink ▸ List.mem_singleton_self c)

theorem written (h : IsColumn c x) : (written x).text = c.text := by
  have hink : inked x = inked [c] :=
    h.ink.trans (inked_cons (by simp [Token.isBlank, h.kind]) []).symm
  rw [written_congr hink]
  simp [QueryTemplate.written, inked, Token.isBlank, h.kind, Fragment.pushToken, needsSpace]

theorem phrased (h : IsColumn c x) : Phrased c.text :=
  .of_lexical (h.firm c h.mem).1 (by simp [h.kind]) (by simp [h.kind])

theorem ink_mem (h : IsColumn c x) : ∃ a ∈ textOf x, Text.isSpace a = false := by
  obtain ⟨a, ha, hs⟩ := ink_of_lexical (h.firm c h.mem).1 (by simp [h.kind])
  exact ⟨a, List.mem_flatMap.2 ⟨c, h.mem, ha⟩, hs⟩

theorem trim (h : IsColumn c x) : Text.trim (textOf x) = c.text := by
  obtain ⟨gs, vs, rfl, hg, hb, hv⟩ := exists_of_inked_eq_cons h.ink
  have hspaces : ∀ {ts : List Token}, Firm ts → (∀ t ∈ ts, t.isBlank = true) →
      ∀ a ∈ textOf ts, Text.isSpace a = true := by
    intro ts hts hb a ha
    obtain ⟨t, ht, ha⟩ := List.mem_flatMap.1 ha
    exact Text.isSpace_of_isBlank ((hts t ht).1.blank (by simpa [Token.isBlank] using hb t ht) a ha)
  have hgs := hspaces (h.firm.subset fun t ht ↦ by simp [ht]) hg
  have hvs := hspaces (h.firm.subset fun t ht ↦ by simp [ht]) (isBlank_of_inked hv)
  have hs := h.phrased.solid
  obtain ⟨a, s, hc⟩ := List.exists_cons_of_ne_nil h.phrased.ne_nil
  have hink : ∃ a ∈ c.text, Text.isSpace a = false := ⟨a, by simp [hc], hs.head a (by rw [hc]; rfl)⟩
  rw [textOf_append, textOf_cons, ← List.append_assoc, Text.trim, trimEnd_append_spaces hvs,
    trimEnd_append hink, hs.trimEnd, Text.trimStart, List.dropWhile_append_of_pos hgs,
    ← Text.trimStart, ← hs.trimEnd]
  exact hs.trim.trans hs.trimEnd.symm

theorem covered (h : IsColumn c x) : Balanced x ∧ Covered isComma 0 x := by
  have hk : c.kind ≠ .opening ∧ c.kind ≠ .closing ∧ c.isComma = false := by simp [h.kind, isComma]
  refine ⟨?_, (covered_inked fun _ ↦ isBlank_of_isComma).1 ?_⟩
  · rw [Balanced, ← depthRun_inked, h.ink]
    simp [depthRun, isOpenParen, isCloseParen, hk.1, hk.2.1]
  · rw [h.ink]
    exact covered_of_forall (by simpa using hk.2.2)

end IsColumn

/-- The tokens `xs` are the columns `cs`. -/
def AreColumns (cs : List Token) (xs : List (List Token)) : Prop := List.Forall₂ IsColumn cs xs

namespace AreColumns

variable {cs : List Token}

theorem texts (h : AreColumns cs xs) : xs.map (Text.trim ∘ textOf) = cs.map (·.text) := by
  induction h with
  | nil => rfl
  | cons hc _ ih => rw [List.map_cons, List.map_cons, ih, Function.comp, hc.trim]

theorem phrased (h : AreColumns cs xs) : ∀ y ∈ cs.map (·.text), Phrased y := by
  induction h with
  | nil => exact nofun
  | cons hc _ ih => exact List.forall_mem_cons.2 ⟨hc.phrased, ih⟩

theorem covered (h : AreColumns cs xs) : ∀ y ∈ xs, Balanced y ∧ Covered isComma 0 y := by
  induction h with
  | nil => exact nofun
  | cons hc _ ih => exact List.forall_mem_cons.2 ⟨hc.covered, ih⟩

/-- The columns between the parentheses after `USING`. -/
theorem argumentsOf (h : AreColumns cs (x :: xs)) :
    argumentsOf (commaList x xs) = cs.map (·.text) := by
  have hne : Text.trim (textOf (commaList x xs)) ≠ [] := by
    cases h with
    | cons hc _ =>
      obtain ⟨a, hm, ha⟩ := hc.ink_mem
      exact trim_ne_nil (by rw [commaList, textOf_append]; exact List.mem_append_left _ hm) ha
  rw [QueryTemplate.argumentsOf, if_neg hne, splitOutside_commaList h.covered, h.texts]

end AreColumns

namespace Join

theorem usingColumns_columns {cs : List Token} (h : AreColumns cs (x :: xs))
    (hg : ∀ g ∈ gs, g.isBlank = true) (ho : o.isOpenParen = true) (hc : c.isCloseParen = true)
    (us : List Token) :
    usingColumns [] (gs ++ o :: (commaList x xs ++ c :: us)) = .ok (cs.map (·.text), us) := by
  have hbal := balanced_commaList fun y hy ↦ (h.covered y hy).1
  have hgr : group [] (commaList x xs ++ c :: us) = .ok (commaList x xs, us) := by
    rw [group, closing?_append hbal hc]
  rw [usingColumns, expectToken_blanks _ hg (isBlank_of_isOpenParen ho).2.2.1]
  simp only [Except.bind, ho, if_true, hgr, Except.map, h.argumentsOf]

end Join

/-- The tokens `ts` after the source of a join are read as the trailer `x`. -/
structure ReadsTrailer (ts : List Token) (x : Trailer) : Prop where
  leaves : ∀ {kind : Text} {source : Source Query} {us : List Token}, Halts us →
    Leaves us (Join.readTail { kind, source } [] (ts ++ us)) (x.join kind source)

/-- Blanks and identifiers. -/
def AreWords (w : List Token) : Prop := ∀ t ∈ w, t.isBlank = true ∨ t.kind = .identifier

theorem dropWhile_dropWhile (ts : List Token) :
    (ts.dropWhile isBlank).dropWhile isBlank = ts.dropWhile isBlank :=
  List.dropWhile_idempotent _ _

theorem aliasWords_constraint (hk : u.kind = .joinConstraint) (us : List Token) :
    Join.aliasWords [] (u :: us) = .ok (([], some u), us) := by
  rw [Join.aliasWords, if_neg (by simp [Token.isBlank, hk]), if_pos (by simp [hk])]

theorem conjuncts_texts_ne_nil (hne : inked ts ≠ []) : (conjuncts ts).filterMap itemOf? ≠ [] := by
  intro h
  refine hne ?_
  have hnone : ∀ r ∈ conjuncts ts, inked r = [] := fun r hr ↦ by
    simpa [itemOf?] using List.filterMap_eq_nil_iff.1 h r hr
  rw [← flatten_conjuncts ts, inked, List.filter_eq_nil_iff]
  intro t ht
  obtain ⟨r, hr, ht⟩ := List.mem_flatten.1 ht
  simp [isBlank_of_inked (hnone r hr) t ht]

theorem readsTrailer_words (hw : AreWords w) :
    ReadsTrailer w { aliases := (inked w).map (·.text) } := by
  refine ⟨fun {kind source us} hu ↦ ?_⟩
  refine ⟨us.dropWhile isBlank, ?_, dropWhile_dropWhile us⟩
  rw [Join.readTail, Join.aliasWords_words hw, Join.aliasWords_halt hu]
  simp [Except.map, Except.bind, Trailer.join]

theorem readsTrailer_using {cs : List Token} (hw : AreWords w)
    (hu : u.kind = .joinConstraint ∧ u.keyword = "using") (hg : ∀ g ∈ gs, g.isBlank = true)
    (ho : o.isOpenParen = true) (h : AreColumns cs (x :: xs)) (hc : c.isCloseParen = true)
    (hv : ∀ v ∈ vs, v.isBlank = true) :
    ReadsTrailer (w ++ u :: (gs ++ o :: (commaList x xs ++ c :: vs))) { aliases := (inked w).map (·.text), columns := cs.map (·.text) } := by
  refine ⟨fun {kind source us} _ ↦ ?_⟩
  have hsplit : w ++ u :: (gs ++ o :: (commaList x xs ++ c :: vs)) ++ us =
      w ++ u :: (gs ++ o :: (commaList x xs ++ c :: (vs ++ us))) := by
    simp
  refine ⟨vs ++ us, ?_, List.dropWhile_append_of_pos hv⟩
  rw [hsplit, Join.readTail, Join.aliasWords_words hw, aliasWords_constraint hu.1]
  simp only [Except.map, Except.bind, hu.2, if_true, Join.usingColumns_columns h hg ho hc]
  simp [Trailer.join]

theorem readsTrailer_on (hw : AreWords w) (hu : u.kind = .joinConstraint ∧ u.keyword = "on")
    (hp : IsPhrase ts) (ht : Firm ts) (hne : inked ts ≠ []) : ReadsTrailer (w ++ u :: ts)
      { aliases := (inked w).map (·.text), predicates := (conjuncts ts).filterMap itemOf? } := by
  refine ⟨fun {kind source us} hh ↦ ?_⟩
  have hon : u.keyword ≠ "using".toList := by
    rw [hu.2]
    decide
  have hsome := conjuncts_texts_ne_nil hne
  refine ⟨us.dropWhile isBlank, ?_, dropWhile_dropWhile us⟩
  rw [List.append_assoc, List.cons_append, Join.readTail, Join.aliasWords_words hw,
    aliasWords_constraint hu.1]
  simp only [Except.map, Except.bind, if_neg hon, Join.conditions_conjuncts hp ht hh,
    Join.someItems, if_neg hsome]
  simp [Trailer.join]

end QueryTemplate
