import QueryTemplate.Proofs.Token.Start
namespace QueryTemplate
namespace Grammar

/-- The words that a phrase can go on with. -/
def continuations : List Text :=
  ["by", "all", "array", "any", "asof", "inner", "left", "right", "full", "cross", "paste", "outer",
    "semi", "anti", "join", "not", "in", "global", "totals", "fill", "rollup", "cube", "ties"]

/-- As many of the words as a phrase begun before them could take. -/
def phraseRest (us : List Text) : List Text := us.takeWhile (continuations.contains ·)

theorem prefix_phraseRest_iff {p us : List Text} (h : ∀ w ∈ p, w ∈ continuations) :
    p <+: phraseRest us ↔ p <+: us := by
  induction p generalizing us with
  | nil => simp
  | cons w p ih =>
    cases us with
    | nil => simp [phraseRest]
    | cons u us =>
      by_cases hu : u ∈ continuations
      · rw [phraseRest, List.takeWhile_cons_of_pos (by simpa using hu), List.cons_prefix_cons,
          List.cons_prefix_cons, ← phraseRest, ih fun v hv ↦ h v (List.mem_cons_of_mem _ hv)]
      · rw [phraseRest, List.takeWhile_cons_of_neg (by simpa using hu)]
        have : w ≠ u := fun e ↦ hu (e ▸ h w List.mem_cons_self)
        simp [List.cons_prefix_cons, this]

theorem phraseWords_congr (ps : List (List Text)) (h : ∀ p ∈ ps, ∀ w ∈ p.tail, w ∈ continuations)
    {w : Text} {us us' : List Text} (hu : phraseRest us = phraseRest us') :
    phraseWords ps (w :: us) = phraseWords ps (w :: us') := by
  rw [phraseWords, phraseWords]
  induction ps with
  | nil => rfl
  | cons p ps ih =>
    have ih := ih fun q hq ↦ h q (List.mem_cons_of_mem _ hq)
    have e : p.isPrefixOf (w :: us) = p.isPrefixOf (w :: us') := by
      rw [Bool.eq_iff_iff, List.isPrefixOf_iff_prefix, List.isPrefixOf_iff_prefix]
      cases p with
      | nil => simp
      | cons v p =>
        have hp : ∀ w ∈ p, w ∈ continuations := h _ List.mem_cons_self
        rw [List.cons_prefix_cons, List.cons_prefix_cons, ← prefix_phraseRest_iff hp, hu,
          prefix_phraseRest_iff hp]
    rw [List.find?_cons, List.find?_cons, e]
    split
    · rfl
    · exact ih

theorem clauseWords_congr {w : Text} {us us' : List Text} (hu : phraseRest us = phraseRest us') :
    clauseWords (w :: us) = clauseWords (w :: us') := by
  have hm : ∀ us : List Text, (∃ v ∈ (w :: us)[1]?, v ∈ modifiers) ↔
      ∃ v ∈ (phraseRest us).head?, v ∈ modifiers := by
    intro us
    have hc : ∀ v ∈ modifiers, v ∈ continuations := by decide
    cases us with
    | nil => simp [phraseRest]
    | cons u us =>
      by_cases h : u ∈ continuations
      · simp [phraseRest, h]
      · simp only [List.getElem?_cons_succ, List.getElem?_cons_zero, Option.mem_some_iff,
          exists_eq_left', phraseRest, List.takeWhile_cons_of_neg (p := (continuations.contains ·))
          (by simpa using h)]
        simp [mt (hc u) h]
  rw [clauseWords, clauseWords, phraseWords_congr _ (by decide) hu]
  simp only [hm, hu, List.head?_cons]

theorem startsPhrase_append {p a : List Text} (ha : "join".toList ∈ a)
    (hp : ∀ w ∈ p, ¬ w <+: "join".toList) (c : List Text) :
    startsPhrase p (a ++ c) = startsPhrase p a := by
  induction p generalizing a with
  | nil => rfl
  | cons w p ih =>
    cases a with
    | nil => cases ha
    | cons u a =>
      cases p with
      | nil => rfl
      | cons v p =>
        rw [List.cons_append, startsPhrase, startsPhrase]
        by_cases e : u = w
        · have hw := hp w List.mem_cons_self
          have hj : "join".toList ∈ a := by
            rcases List.mem_cons.1 ha with h | h
            · exact absurd (e ▸ h ▸ List.prefix_refl _) hw
            · exact h
          rw [ih hj fun x hx ↦ hp x (List.mem_cons_of_mem _ hx)]
        · simp [e]

theorem prefix_append_iff {p a : List Text} (ha : "join".toList ∈ a)
    (hp : "join".toList ∉ p) (c : List Text) : p <+: a ++ c ↔ p <+: a := by
  induction p generalizing a with
  | nil => simp
  | cons w p ih =>
    cases a with
    | nil => cases ha
    | cons u a =>
      rw [List.cons_append, List.cons_prefix_cons, List.cons_prefix_cons]
      refine and_congr_right fun e ↦ ih ?_ fun h ↦ hp (List.mem_cons_of_mem _ h)
      rcases List.mem_cons.1 ha with h | h
      · exact absurd (h.trans e.symm ▸ List.mem_cons_self) hp
      · exact h

theorem mem_drop_of_prefixed {p a : List Text} (ha : "join".toList ∈ a) (hp : "join".toList ∉ p)
    (h : p <+: a) : "join".toList ∈ a.drop p.length := by
  obtain ⟨q, rfl⟩ := h
  rw [List.drop_left]
  exact (List.mem_append.1 ha).resolve_left hp

/-- What optional parts take is decided before the word `JOIN`. -/
theorem optionalWords_append {ps : List (List Text)} {a : List Text} (ha : "join".toList ∈ a)
    (hp : ∀ p ∈ ps, ∀ w ∈ p, ¬ w <+: "join".toList) (c : List Text) :
    optionalWords ps (a ++ c) = optionalWords ps a ∧
      "join".toList ∈ a.drop (optionalWords ps a) := by
  have hn : ∀ p ∈ ps, "join".toList ∉ p := fun p h hj ↦ hp p h _ hj (List.prefix_refl _)
  have hf : ps.find? (startsPhrase · (a ++ c)) = ps.find? (startsPhrase · a) := by
    clear hn
    induction ps with
    | nil => rfl
    | cons p ps ih =>
      rw [List.find?_cons, List.find?_cons, startsPhrase_append ha (hp p List.mem_cons_self),
        ih fun q hq ↦ hp q (List.mem_cons_of_mem _ hq)]
  rw [optionalWords, optionalWords, hf]
  cases e : ps.find? (startsPhrase · a) with
  | none => simpa using ha
  | some p =>
    have hj := hn p (List.mem_of_find?_eq_some e)
    by_cases hpre : p <+: a
    · have hl : p.length < a.length := by
        have := List.length_pos_iff.2 (List.ne_nil_of_mem (mem_drop_of_prefixed ha hj hpre))
        rw [List.length_drop] at this
        omega
      have hl' : p.length < a.length + c.length := by omega
      have hpre' := (prefix_append_iff ha hj c).2 hpre
      simpa [List.isPrefixOf_iff_prefix.2 hpre, List.isPrefixOf_iff_prefix.2 hpre', hl, hl'] using
        mem_drop_of_prefixed ha hj hpre
    · have hpre' := mt (prefix_append_iff ha hj c).1 hpre
      simp only [← List.isPrefixOf_iff_prefix, Bool.not_eq_true] at hpre hpre'
      simpa [hpre, hpre'] using ha

theorem joinWords_append {parts : List (List (List Text))}
    (hp : ∀ ps ∈ parts, ∀ p ∈ ps, ∀ w ∈ p, ¬ w <+: "join".toList) {a : List Text}
    (ha : "join".toList ∈ a) (c : List Text) : joinWords parts (a ++ c) = joinWords parts a := by
  induction parts generalizing a with
  | nil => cases a <;> simp_all [joinWords]
  | cons ps parts ih =>
    obtain ⟨e, hj⟩ := optionalWords_append ha (hp ps List.mem_cons_self) c
    have hl : optionalWords ps a ≤ a.length := by
      have := List.length_pos_iff.2 (List.ne_nil_of_mem hj)
      rw [List.length_drop] at this
      omega
    rw [joinWords, joinWords, e, List.drop_append_of_le_length hl,
      ih (fun q hq ↦ hp q (List.mem_cons_of_mem _ hq)) hj]

theorem prefix_optionalWords {ps : List (List Text)} {ws : List Text}
    (h : optionalWords ps ws ≠ 0) :
    ∃ p ∈ ps, ws.take (optionalWords ps ws) = p := by
  rw [optionalWords] at h ⊢
  cases e : ps.find? (startsPhrase · ws) with
  | none => simp [e] at h
  | some p =>
    simp only [e] at h ⊢
    split at h
    · rename_i hp
      rw [if_pos hp]
      simp only [Bool.and_eq_true, List.isPrefixOf_iff_prefix] at hp
      exact ⟨p, List.mem_of_find?_eq_some e, List.prefix_iff_eq_take.1 hp.1 |>.symm⟩
    · exact absurd rfl h

theorem take_joinWords {parts : List (List (List Text))}
    (hp : ∀ ps ∈ parts, ∀ p ∈ ps, ∀ w ∈ p, w ∈ continuations) {ws : List Text} {n : Nat}
    (h : joinWords parts ws = some n) :
    n ≤ ws.length ∧ "join".toList ∈ ws.take n ∧ ∀ w ∈ ws.take n, w ∈ continuations := by
  induction parts generalizing ws n with
  | nil =>
    cases ws with
    | nil => simp [joinWords] at h
    | cons w ws =>
      simp only [joinWords, List.head?_cons, Option.some.injEq] at h
      split at h
      · obtain rfl := Option.some.inj h
        simp_all [continuations]
      · cases h
  | cons ps parts ih =>
    obtain ⟨m, hm, rfl⟩ := Option.map_eq_some_iff.1 h
    obtain ⟨hl, hj, hc⟩ := ih (fun q hq ↦ hp q (List.mem_cons_of_mem _ hq)) hm
    have hpos := joinWords_pos hm
    rw [List.length_drop] at hl
    rw [List.take_add]
    refine ⟨by omega, List.mem_append_right _ hj, fun w hw ↦ ?_⟩
    rcases List.mem_append.1 hw with hw | hw
    · by_cases h0 : optionalWords ps ws = 0
      · simp [h0] at hw
      · obtain ⟨p, hps, e⟩ := prefix_optionalWords h0
        exact hp ps List.mem_cons_self p hps w (e ▸ hw)
    · exact hc w hw

theorem joinWords_congr {w : Text} {us us' : List Text} (hu : phraseRest us = phraseRest us') :
    joinWords joinParts (w :: us) = joinWords joinParts (w :: us') := by
  have hj : ∀ ps ∈ joinParts, ∀ p ∈ ps, ∀ w ∈ p, ¬ w <+: "join".toList := by decide
  have key : ∀ {us us' n}, phraseRest us = phraseRest us' →
      joinWords joinParts (w :: us) = some n → joinWords joinParts (w :: us') = some n := by
    intro us us' n hu h
    obtain ⟨hl, hm, hc⟩ := take_joinWords (by decide) h
    obtain ⟨m, rfl⟩ : ∃ m, n = m + 1 := ⟨n - 1, by have := joinWords_pos h; omega⟩
    rw [List.take_succ_cons] at hm hc
    have hp : us.take m <+: us' := by
      rw [← prefix_phraseRest_iff fun v hv ↦ hc v (List.mem_cons_of_mem _ hv), ← hu,
        prefix_phraseRest_iff fun v hv ↦ hc v (List.mem_cons_of_mem _ hv)]
      exact List.take_prefix _ _
    obtain ⟨c, rfl⟩ := hp
    have h₁ := joinWords_append hj hm (us.drop m)
    have h₂ := joinWords_append hj hm c
    rw [List.cons_append, List.take_append_drop] at h₁
    rw [← List.cons_append, h₂, ← h₁, h]
  cases e : joinWords joinParts (w :: us) with
  | some n => exact (key hu e).symm
  | none =>
    cases e' : joinWords joinParts (w :: us') with
    | none => rfl
    | some n => rw [key hu.symm e'] at e; cases e

/-- The class of a word depends on the words after it only as far as a phrase could go on. -/
theorem classify_congr {w : Text} {us us' : List Text} (hu : phraseRest us = phraseRest us') :
    classify (w :: us) = classify (w :: us') := by
  simp only [classify, wordClasses, List.findSome?_cons, clauseWords_congr hu, joinWords_congr hu,
    phraseWords_congr [["using"], ["on"]] (by decide) hu,
    phraseWords_congr [["and"], ["or"]] (by decide) hu,
    phraseWords_congr membershipPhrases (by decide) hu,
    List.findSome?_nil]

theorem eq_none_of_starts {k : Kind} {a : Recognizer} (h : (k, a) ∈ classes) {c : Char}
    (hc : startsKind k c = false) (s : Text) : a (c :: s) = none :=
  (starts_of_mem_classes h).eq_none hc s

theorem not_startsWord_of_isDigit {c : Char} (h : c.isDigit = true) : startsWord c = false := by
  simp only [Char.isDigit, ge_iff_le, Bool.and_eq_true, decide_eq_true_eq, UInt32.le_iff_toNat_le,
    UInt32.reduceToNat, Char.reduceVal] at h
  have e : c = '_' → c.val.toNat = 95 := by rintro rfl; rfl
  refine Bool.eq_false_iff.2 fun hs ↦ ?_
  simp only [startsWord, Bool.or_eq_true, decide_eq_true_eq, Text.isAlpha_iff] at hs
  rcases hs with hs | hs
  · omega
  · have := e hs
    omega

theorem munch_word {c : Char} {s : Text} (h : startsWord c = true) :
    munch (c :: s) = (classify (leadingWords (c :: s))).map fun p ↦
      let r := pastWord (p.2 - 1) (c :: s)
      (⟨p.1, (c :: s).take ((c :: s).length - r.length)⟩, r) := by
  have hne : ∀ d : Char, startsWord d = false → ¬ c = d := by
    rintro d hd rfl
    simp [h] at hd
  have hdigit : c.isDigit = false := by
    cases hd : c.isDigit with
    | false => rfl
    | true => rw [not_startsWord_of_isDigit hd] at h; cases h
  have hi : identifier (c :: s) = some (pastWord 0 (c :: s)) := by
    have hc : Text.isNameChar c = true := by
      simp only [startsWord, Bool.or_eq_true, Text.isNameChar, Char.isAlphanum] at h ⊢
      rcases h with h | h <;> simp [h]
    simp only [startsWord] at h
    simp [identifier, Recognizer.seq, Recognizer.one, Recognizer.many, h, pastWord, skipWords, hc]
  have hk : ∀ k ∈ [Kind.blank, .comment, .aggregation, .placeholder, .string, .number],
      startsKind k c = false := by
    simp [startsKind, Text.isBlank, hdigit, hne _ (rfl : startsWord ' ' = false),
      hne _ (rfl : startsWord '\t' = false), hne _ (rfl : startsWord '\r' = false),
      hne _ (rfl : startsWord '\n' = false), hne _ (rfl : startsWord '-' = false),
      hne _ (rfl : startsWord '/' = false), hne _ (rfl : startsWord '$' = false),
      hne _ (rfl : startsWord '\'' = false), hne _ (rfl : startsWord '`' = false),
      hne _ (rfl : startsWord '"' = false), hne _ (rfl : startsWord '.' = false)]
  have hn : ∀ a ∈ [(Kind.blank, blank), (.comment, comment), (.aggregation, aggregation),
      (.placeholder, placeholder), (.string, string), (.number, number)], a.2 (c :: s) = none := by
    intro a ha
    refine eq_none_of_starts (k := a.1) ?_ (hk a.1 ?_) s
    · revert a
      simp [classes]
    · revert a
      simp
  simp only [List.forall_mem_cons] at hn
  obtain ⟨h₁, h₂, h₃, h₄, h₅, h₆, -⟩ := hn
  simp only [munch, classes, List.findSome?_cons, h₁, h₂, h₃, h₄, h₅, h₆, hi, takes_clause _,
    takes_join _, takes_joinConstraint _, takes_conjunction _, takes_membership _, Option.map_map,
    Option.map_none, classify, wordClasses]
  cases clauseWords (leadingWords (c :: s)) with
  | some n => rfl
  | none =>
    cases joinWords joinParts (leadingWords (c :: s)) with
    | some n => rfl
    | none =>
      cases phraseWords [["using"], ["on"]] (leadingWords (c :: s)) with
      | some n => rfl
      | none =>
        cases phraseWords [["and"], ["or"]] (leadingWords (c :: s)) with
        | some n => rfl
        | none => cases phraseWords membershipPhrases (leadingWords (c :: s)) <;> rfl

/-- The leading words after a name that ends where the text starts. -/
def follow (r : Text) : List Text :=
  if r.head?.any Text.isBlank then leadingWords (r.dropWhile Text.isBlank) else []

theorem leadingWords_append_of_name {t r : Text} (ht : ∀ c ∈ t, Text.isNameChar c = true)
    (hr : Text.Stops Text.isNameChar r) : leadingWords (t ++ r) = Text.lower t :: follow r := by
  rw [leadingWords, spaced, skipWord, Text.takeWhile_append_stops ht hr,
    Text.dropWhile_append_stops ht hr, follow]
  split <;> simp_all

theorem leadingWords_append_of_gap {a g x : Text} (ha : ∀ c ∈ a, Text.isNameChar c = true)
    (hg : ∀ c ∈ g, Text.isBlank c = true) (hg' : g ≠ []) (hx : Text.Stops Text.isBlank x) :
    leadingWords (a ++ (g ++ x)) = Text.lower a :: leadingWords x ∧
      skipWord (a ++ (g ++ x)) = x := by
  cases g with
  | nil => exact absurd rfl hg'
  | cons b g =>
    have hb := hg b List.mem_cons_self
    have hs : Text.Stops Text.isNameChar (b :: g ++ x) := by simp [stops_name_of_isBlank hb]
    have hk : skipWord (a ++ (b :: g ++ x)) = x := by
      rw [skipWord, Text.dropWhile_append_stops ha hs, Text.dropWhile_append_stops hg hx]
    refine ⟨?_, hk⟩
    rw [leadingWords_of_spaced, hk, Text.takeWhile_append_stops ha hs]
    rw [spaced, Text.dropWhile_append_stops ha hs]
    simpa using hb

theorem exists_gap_of_spaced {s : Text} (h : spaced s = true) : ∃ a g : Text,
    (∀ c ∈ a, Text.isNameChar c = true) ∧ (∀ c ∈ g, Text.isBlank c = true) ∧ g ≠ [] ∧
      s = a ++ (g ++ skipWord s) := by
  refine ⟨s.takeWhile Text.isNameChar, (s.dropWhile Text.isNameChar).takeWhile Text.isBlank,
    fun c ↦ Text.mem_takeWhile, fun c ↦ Text.mem_takeWhile, ?_, ?_⟩
  · simp only [spaced, Option.any_eq_true] at h
    obtain ⟨c, hc, hb⟩ := h
    obtain ⟨u, hu⟩ := List.head?_eq_some_iff.1 hc
    simp [hu, List.takeWhile_cons_of_pos hb]
  · rw [skipWord, List.takeWhile_append_dropWhile, List.takeWhile_append_dropWhile]

theorem suffix_pastWord (n : Nat) (s : Text) : pastWord n s <:+ s := by
  induction n generalizing s with
  | zero => exact List.dropWhile_suffix _
  | succ n ih =>
    exact (ih (skipWord s)).trans ((List.dropWhile_suffix _).trans (List.dropWhile_suffix _))

/-- What follows the last of some words can be exchanged for any text that does not go on with a
name. -/
theorem leadingWords_append {n : Nat} {t r r' : Text} (h : pastWord n (t ++ r) = r)
    (hn : n < (leadingWords (t ++ r)).length)
    (hw : ∀ w ∈ (leadingWords (t ++ r)).take (n + 1), w ≠ [])
    (hr : Text.Stops Text.isNameChar r') :
    leadingWords (t ++ r') = (leadingWords (t ++ r)).take (n + 1) ++ follow r' ∧
      pastWord n (t ++ r') = r' := by
  induction n generalizing t with
  | zero =>
    have ht : (t ++ r).takeWhile Text.isNameChar = t := Text.eq_takeWhile_of_dropWhile h
    have hc : ∀ c ∈ t, Text.isNameChar c = true := fun c hc ↦ Text.mem_takeWhile (ht ▸ hc)
    obtain ⟨us, hu⟩ := leadingWords_eq_cons (t ++ r)
    rw [leadingWords_append_of_name hc hr, hu, ht]
    exact ⟨rfl, Text.dropWhile_append_stops hc hr⟩
  | succ n ih =>
    have hs : spaced (t ++ r) = true := by
      cases e : spaced (t ++ r) with
      | true => rfl
      | false => simp [leadingWords_of_not_spaced e] at hn
    obtain ⟨a, g, ha, hg, hg', e⟩ := exists_gap_of_spaced hs
    have hst : Text.Stops Text.isBlank (skipWord (t ++ r)) := Text.stops_dropWhile _ _
    have hl := (leadingWords_append_of_gap ha hg hg' hst).1
    rw [← e] at hl
    rw [hl] at hn hw ⊢
    rw [pastWord_succ] at h
    obtain ⟨t₂, hx⟩ := suffix_pastWord n (skipWord (t ++ r))
    rw [h] at hx
    rw [← hx] at h hn hw hst e ⊢
    have hr₀ : Text.Stops Text.isNameChar r := h ▸ Text.stops_dropWhile _ _
    obtain rfl : t = a ++ (g ++ t₂) := by
      refine (List.append_left_inj r).1 (e.trans ?_)
      simp
    have ht₂ : t₂ ≠ [] := by
      rintro rfl
      obtain ⟨us, hu⟩ := leadingWords_eq_cons r
      rw [Text.takeWhile_of_stops hr₀] at hu
      simp [hu] at hw
    have hst' : Text.Stops Text.isBlank (t₂ ++ r') := by
      cases t₂ with
      | nil => exact absurd rfl ht₂
      | cons d u => simpa using hst
    obtain ⟨h₁, h₂⟩ := ih h (by simpa using hn) fun w hw' ↦ hw w (List.mem_cons_of_mem _ hw')
    obtain ⟨h₃, h₄⟩ := leadingWords_append_of_gap ha hg hg' hst'
    rw [List.append_assoc, List.append_assoc, h₃, pastWord_succ, h₄, h₁]
    exact ⟨rfl, h₂⟩

theorem phraseWords_bounds {ps : List (List Text)} (hp : ∀ p ∈ ps, p ≠ [] ∧ ∀ w ∈ p, w ≠ [])
    {ws : List Text} {n : Nat} (h : phraseWords ps ws = some n) :
    0 < n ∧ n ≤ ws.length ∧ ∀ w ∈ ws.take n, w ≠ [] := by
  obtain ⟨p, e, rfl⟩ := Option.map_eq_some_iff.1 h
  obtain ⟨h₁, h₂⟩ := hp p (List.mem_of_find?_eq_some e)
  have hpre := List.isPrefixOf_iff_prefix.1
    (List.find?_some (p := fun q : List Text ↦ q.isPrefixOf ws) e)
  refine ⟨List.length_pos_iff.2 h₁, hpre.length_le, ?_⟩
  rw [← List.prefix_iff_eq_take.1 hpre]
  exact h₂

theorem classify_bounds {w : Text} (hw : w ≠ []) {us : List Text} {k : Kind} {n : Nat}
    (h : classify (w :: us) = some (k, n)) :
    0 < n ∧ n ≤ (w :: us).length ∧ ∀ v ∈ (w :: us).take n, v ≠ [] := by
  have one : ∀ {m}, some 1 = some m → 0 < m ∧ m ≤ (w :: us).length ∧
      ∀ v ∈ (w :: us).take m, v ≠ [] := by
    intro m hm
    obtain rfl := Option.some.inj hm
    simpa using hw
  obtain ⟨⟨k', f⟩, hf, e⟩ := List.exists_of_findSome?_eq_some h
  obtain ⟨m, hm, e⟩ := Option.map_eq_some_iff.1 e
  obtain ⟨rfl, rfl⟩ := Prod.mk.inj e
  simp only [wordClasses, List.mem_cons, Prod.mk.injEq, List.not_mem_nil, or_false] at hf
  rcases hf with ⟨-, rfl⟩ | ⟨-, rfl⟩ | ⟨-, rfl⟩ | ⟨-, rfl⟩ | ⟨-, rfl⟩ | ⟨-, rfl⟩
  · simp only [clauseWords] at hm
    split at hm
    · rename_i e
      exact phraseWords_bounds (by decide) (hm ▸ e)
    · split at hm
      · exact one hm
      · cases hm
  · obtain ⟨h₁, -, h₂⟩ := take_joinWords (by decide) hm
    have : ∀ v ∈ continuations, v ≠ [] := by decide
    exact ⟨joinWords_pos hm, h₁, fun v hv ↦ this v (h₂ v hv)⟩
  · exact phraseWords_bounds (by decide) hm
  · exact phraseWords_bounds (by decide) hm
  · exact phraseWords_bounds (by decide) hm
  · exact one hm

theorem phraseRest_append {ws us us' : List Text} (h : phraseRest us = phraseRest us') :
    phraseRest (ws ++ us) = phraseRest (ws ++ us') := by
  simp only [phraseRest] at h ⊢
  rw [List.takeWhile_append, List.takeWhile_append, h]

theorem isNameChar_of_startsWord {c : Char} (h : startsWord c = true) :
    Text.isNameChar c = true := by
  simp only [startsWord, Bool.or_eq_true, Text.isNameChar, Char.isAlphanum] at h ⊢
  rcases h with h | h <;> simp [h]

/-- A word is first in a text if its leading words are of its class and end where the word does. -/
theorem munch_word_iff {u r : Text} {k : Kind} (h : u.head?.any startsWord = true) :
    munch (u ++ r) = some (⟨k, u⟩, r) ↔
      ∃ n, classify (leadingWords (u ++ r)) = some (k, n + 1) ∧ pastWord n (u ++ r) = r := by
  cases u with
  | nil => cases h
  | cons c u =>
    have hc : startsWord c = true := by simpa using h
    obtain ⟨us, hw⟩ := leadingWords_eq_cons (c :: u ++ r)
    have hne : Text.lower ((c :: u ++ r).takeWhile Text.isNameChar) ≠ [] := by
      simp [isNameChar_of_startsWord hc]
    rw [List.cons_append, munch_word hc, Option.map_eq_some_iff, ← List.cons_append]
    constructor
    · rintro ⟨⟨k', m⟩, hk, e⟩
      obtain ⟨e, hr⟩ := Prod.mk.inj e
      obtain ⟨hkind, -⟩ := Token.mk.inj e
      obtain ⟨hpos, -, -⟩ := classify_bounds hne (hw ▸ hk)
      obtain ⟨n, rfl⟩ : ∃ n, m = n + 1 := ⟨m - 1, by omega⟩
      simp only at hkind
      exact ⟨n, hkind ▸ hk, hr⟩
    · rintro ⟨n, hk, hr⟩
      refine ⟨_, hk, ?_⟩
      simp only [Nat.add_sub_cancel, hr, List.length_append]
      rw [List.take_left' rfl]

theorem stops_of_munch_word {u r : Text} {k : Kind} (hu : u.head?.any startsWord = true)
    (h : munch (u ++ r) = some (⟨k, u⟩, r)) : Text.Stops Text.isNameChar r := by
  obtain ⟨n, -, hpast⟩ := (munch_word_iff hu).1 h
  rw [← hpast]
  exact Text.stops_dropWhile _ _

/-- The leading words of a text that starts with a word are those of the word and those that follow
it. -/
theorem leadingWords_of_munch_word {u r : Text} {k : Kind} {n : Nat}
    (hu : u.head?.any startsWord = true) (hk : classify (leadingWords (u ++ r)) = some (k, n + 1))
    (hpast : pastWord n (u ++ r) = r) {r' : Text} (hr : Text.Stops Text.isNameChar r') :
    leadingWords (u ++ r') = leadingWords u ++ follow r' ∧ (leadingWords u).length = n + 1 ∧
      pastWord n (u ++ r') = r' ∧ ∀ w ∈ leadingWords u, w ≠ [] := by
  obtain ⟨us, hw⟩ := leadingWords_eq_cons (u ++ r)
  have hne : Text.lower ((u ++ r).takeWhile Text.isNameChar) ≠ [] := by
    cases u with
    | nil => cases hu
    | cons c u => simp [isNameChar_of_startsWord (by simpa using hu)]
  obtain ⟨-, hlen, hwords⟩ := classify_bounds hne (hw ▸ hk)
  rw [← hw] at hlen hwords
  obtain ⟨h₁, h₂⟩ := leadingWords_append hpast hlen hwords hr
  obtain ⟨h₃, -⟩ := leadingWords_append hpast hlen hwords (Text.stops_nil _)
  have hf : follow [] = [] := rfl
  rw [List.append_nil, hf, List.append_nil] at h₃
  rw [h₁, ← h₃]
  refine ⟨rfl, ?_, h₂, h₃ ▸ hwords⟩
  rw [h₃, List.length_take]
  omega

/-- A word is read alike before two texts that let it end and whose words give it the same class. -/
theorem munch_word_congr {u : Text} {k : Kind} (hu : u.head?.any startsWord = true) {r r' : Text}
    (h : munch (u ++ r) = some (⟨k, u⟩, r)) (hr : Text.Stops Text.isNameChar r')
    (hp : classify (leadingWords u ++ follow r) = classify (leadingWords u ++ follow r')) :
    munch (u ++ r') = some (⟨k, u⟩, r') := by
  obtain ⟨n, hk, hpast⟩ := (munch_word_iff hu).1 h
  obtain ⟨h₁, -⟩ := leadingWords_of_munch_word hu hk hpast (stops_of_munch_word hu h)
  obtain ⟨h₂, -, h₃, -⟩ := leadingWords_of_munch_word hu hk hpast hr
  refine (munch_word_iff hu).2 ⟨n, ?_, h₃⟩
  rw [h₂, ← hp, ← h₁, hk]

theorem classify_append_congr {ws us us' : List Text} (hw : ws ≠ [])
    (h : phraseRest us = phraseRest us') : classify (ws ++ us) = classify (ws ++ us') := by
  obtain ⟨w, ws, rfl⟩ := List.exists_cons_of_ne_nil hw
  exact classify_congr (phraseRest_append h)

/-- Phrases whose class no later word changes. -/
def fixedPhrases : List (List Text) := ["and"] :: ["or"] :: clausePhrases

theorem phraseWords_append {ps : List (List Text)} (hu : Distinct ps) {p : List Text} (hp : p ∈ ps)
    (us : List Text) : phraseWords ps (p ++ us) = some p.length := by
  rw [phraseWords]
  induction ps with
  | nil => cases hp
  | cons q ps ih =>
    obtain ⟨hd, hu⟩ := List.pairwise_cons.1 hu
    by_cases hq : q <+: p ++ us
    · rw [List.find?_cons_of_pos (by simpa using hq)]
      rcases List.mem_cons.1 hp with rfl | hp
      · rfl
      · obtain ⟨h₁, h₂⟩ := hd p hp
        rcases List.prefix_or_prefix_of_prefix hq (List.prefix_append p us) with h | h
        · rw [startsPhrase_of_prefixed h] at h₁
          cases h₁
        · exact absurd h h₂
    · rw [List.find?_cons_of_neg (by simpa using hq)]
      refine ih hu ((List.mem_cons.1 hp).resolve_left ?_)
      rintro rfl
      exact hq (List.prefix_append _ _)

theorem classify_fixed {p : List Text} (hp : p ∈ fixedPhrases) (us us' : List Text) :
    classify (p ++ us) = classify (p ++ us') := by
  have key : ∀ us, classify (p ++ us) =
      some (if p ∈ clausePhrases then (.clause, p.length) else (.conjunction, 1)) := by
    intro us
    by_cases hc : p ∈ clausePhrases
    · simp only [if_pos hc, classify, wordClasses, List.findSome?_cons, clauseWords,
        phraseWords_append (by decide) hc, Option.map_some]
    · rw [if_neg hc]
      simp only [fixedPhrases, List.mem_cons, hc, or_false] at hp
      rcases hp with rfl | rfl <;>
        simp [classify, wordClasses, clauseWords, phraseWords, clausePhrases, joinWords, joinParts,
          optionalWords, startsPhrase, joinStrictness, joinKinds, joinModifiers, List.isPrefixOf]
  rw [key, key]

end Grammar
end QueryTemplate
