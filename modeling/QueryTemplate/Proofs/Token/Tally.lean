import QueryTemplate.Proofs.Token.Bite
namespace QueryTemplate

open Token Grammar Recognizer

variable {lines : Bool} {c : Char} {s r u w x y z : Text} {n m : Int} {b : Bool} {t : Token}

/-- Parentheses opened less closed in a text that is read as code, and whether a line comment goes
on at its end. -/
def tally (lines : Bool) (s : Text) : Option (Int × Bool) :=
  if s = [] then some (0, false)
  else
    match _h : bite lines s with
    | none => none
    | some (n, none) => some (n, true)
    | some (n, some r) => (tally lines r).map fun p ↦ (n + p.1, p.2)
termination_by s.length
decreasing_by exact (bite_suffix _h).2

@[simp] theorem tally_nil : tally lines [] = some (0, false) := by
  rw [tally, if_pos rfl]

theorem tally_eq (hs : s ≠ []) : tally lines s = (bite lines s).bind fun p ↦
    match p.2 with
    | none => some (p.1, true)
    | some r => (tally lines r).map fun q ↦ (p.1 + q.1, q.2) := by
  rw [tally, if_neg hs]
  split <;> rename_i e <;> rw [e] <;> rfl

theorem ne_nil_of_bite {p : Int × Option Text} (h : bite lines s = some p) : s ≠ [] := by
  rintro rfl
  cases h

theorem tally_of_bite (h : bite lines s = some (n, some r)) :
    tally lines s = (tally lines r).map fun p ↦ (n + p.1, p.2) := by
  rw [tally_eq (ne_nil_of_bite h), h]
  rfl

theorem tally_of_bite_end (h : bite lines s = some (n, none)) : tally lines s = some (n, true) := by
  rw [tally_eq (ne_nil_of_bite h), h]
  rfl

/-- A text with a tally is empty or starts with a step. -/
theorem bite_of_tally (h : tally lines s = some (n, b)) (hs : s ≠ []) :
    bite lines s = some (n, none) ∧ b = true ∨
      ∃ k r, bite lines s = some (k, some r) ∧ tally lines r = some (n - k, b) := by
  rw [tally_eq hs] at h
  obtain ⟨⟨k, o⟩, hb, h⟩ := Option.bind_eq_some_iff.1 h
  cases o with
  | none =>
    obtain ⟨rfl, rfl⟩ := Prod.mk.inj (Option.some.inj h)
    exact .inl ⟨hb, rfl⟩
  | some r =>
    obtain ⟨q, hq, e⟩ := Option.map_eq_some_iff.1 h
    obtain ⟨rfl, rfl⟩ := Prod.mk.inj e
    refine .inr ⟨k, r, hb, ?_⟩
    rw [hq, show k + q.1 - k = q.1 by omega]

/-- A step without parentheses. -/
theorem tally_skip (h : bite lines s = some (0, some r)) : tally lines s = tally lines r := by
  rw [tally_of_bite h]
  cases tally lines r <;> simp

theorem tally_loose (h : isLoose c = true) : tally lines (c :: s) = tally lines s :=
  tally_skip (bite_loose h)

theorem tally_sign (h : isSign c s = true) : tally lines (c :: s) = tally lines s :=
  tally_skip (bite_sign h)

theorem tally_loose_append (h : ∀ c ∈ u, isLoose c = true) :
    tally lines (u ++ s) = tally lines s := by
  induction u with
  | nil => rfl
  | cons c u ih =>
    rw [List.cons_append, tally_loose (h c List.mem_cons_self),
      ih fun d hd ↦ h d (List.mem_cons_of_mem _ hd)]

theorem tally_of_loose (h : ∀ c ∈ u, isLoose c = true) : tally lines u = some (0, false) := by
  rw [← List.append_nil u, tally_loose_append h, tally_nil]

theorem tally_opening : tally lines ('(' :: s) = (tally lines s).map fun p ↦ (1 + p.1, p.2) :=
  tally_of_bite (by rw [bite, if_pos rfl])

theorem tally_closing : tally lines (')' :: s) = (tally lines s).map fun p ↦ (-1 + p.1, p.2) :=
  tally_of_bite (by rw [bite, if_neg (by decide), if_pos rfl])

/-- The tally of two texts that nothing goes across. -/
theorem tally_append (h : tally lines x = some (m, false)) (hs : Seam x y) :
    tally lines (x ++ y) = (tally lines y).map fun p ↦ (m + p.1, p.2) := by
  induction hn : x.length using Nat.strongRecOn generalizing x m with
  | ind k ih =>
    by_cases hx : x = []
    · subst hx
      rw [tally_nil] at h
      obtain ⟨rfl, -⟩ := Prod.mk.inj (Option.some.inj h)
      cases hy : tally lines y <;> simp [hy]
    · obtain ⟨-, hb⟩ | ⟨d, r, hb, hr⟩ := bite_of_tally h hx
      · cases hb
      · obtain ⟨hsuf, hlt⟩ := bite_suffix hb
        rw [tally_of_bite (bite_append hb fun _ ↦ hs)]
        by_cases hne : r = []
        · subst hne
          rw [tally_nil] at hr
          have hd : 0 = m - d := (Prod.mk.inj (Option.some.inj hr)).1
          rw [List.nil_append, show d = m by omega]
        · rw [ih _ (hn ▸ hlt) hr (hs.suffix hsuf hne) rfl, Option.map_map]
          congr
          funext p
          simp only [Function.comp_apply, Prod.mk.injEq, and_true]
          omega

/-- White space has no parentheses. -/
theorem tally_spaces (h : tally lines w = some (n, b)) (hw : ∀ d ∈ w, Text.isSpace d = true) :
    n = 0 := by
  induction w generalizing n with
  | nil => exact (Prod.mk.inj (Option.some.inj (tally_nil.symm.trans h))).1.symm
  | cons d w ih =>
    have hd := hw d List.mem_cons_self
    obtain ⟨hb, -⟩ | ⟨k, r, hb, hr⟩ := bite_of_tally h (List.cons_ne_nil d w)
    · exact (bite_space hb hd).1
    · obtain ⟨rfl, e⟩ := bite_space hb hd
      obtain rfl := Option.some.inj e
      have := ih hr fun e he ↦ hw e (List.mem_cons_of_mem _ he)
      omega

/-- A text without the white space at its end. -/
theorem tally_left (h : tally lines (x ++ w) = some (n, b)) (hw : ∀ d ∈ w, Text.isSpace d = true)
    (hx : ∀ d ∈ x.getLast?, Text.isSpace d = false) : ∃ b', tally lines x = some (n, b') := by
  induction hn : x.length using Nat.strongRecOn generalizing x n with
  | ind k ih =>
    cases x with
    | nil => exact ⟨false, by rw [tally_nil, tally_spaces h hw]⟩
    | cons c s =>
      have hxs : ∀ z, z <:+ c :: s → ∀ d ∈ z.getLast?, Text.isSpace d = false := by
        intro z hz d hd
        refine hx d ?_
        rwa [← getLast?_of_suffix hz]
        rintro rfl
        cases hd
      -- after a step within the text
      have step : ∀ {m z}, bite lines (c :: s) = some (m, some z) →
        tally lines (z ++ w) = some (n - m, b) →
          ∃ b', tally lines (c :: s) = some (n, b') := by
        intro m z hb hz
        obtain ⟨hsuf, hlt⟩ := bite_suffix hb
        obtain ⟨b', e⟩ := ih _ (hn ▸ hlt) hz (hxs z hsuf) rfl
        refine ⟨b', ?_⟩
        rw [tally_of_bite hb, e, Option.map_some, show m + (n - m) = n by omega]
      -- a line comment that goes on at the end
      have stop : ∀ {u : Token}, Whole c s → lines = true → u.isLineComment = true →
        munch (c :: s) = some (u, []) → n = 0 →
          ∃ b', tally lines (c :: s) = some (n, b') := by
        rintro u hw rfl hu hm rfl
        exact ⟨true, tally_of_bite_end (hw.bite_line hm hu)⟩
      obtain ⟨hb, -⟩ | ⟨m, r, hb, hr⟩ := bite_of_tally h (List.cons_ne_nil c (s ++ w))
      · generalize ho : none = o at hb
        cases bites_of_bite hb with
        | opening | closing | loose | sign | token => cases ho
        | line hwhole hm ht hl =>
          split at ho
          · subst_vars
            obtain ⟨u, hu, hm', -⟩ | ⟨z, hz, -, e, -⟩ :=
              munch_left_line (x := c :: s) hm hw hx (by simp) ht
            · exact stop (hwhole.left hw) rfl hu hm' rfl
            · exact absurd (List.append_eq_nil_iff.1 e.symm).1 hz
          · cases ho
      · generalize ho : some r = o at hb
        cases bites_of_bite hb with
        | opening =>
          obtain rfl := Option.some.inj ho
          exact step rfl hr
        | closing =>
          obtain rfl := Option.some.inj ho
          exact step rfl hr
        | loose hc =>
          obtain rfl := Option.some.inj ho
          exact step (bite_loose hc) hr
        | sign hc =>
          obtain rfl := Option.some.inj ho
          exact step (bite_sign (isSign_left hc)) hr
        | line hwhole hm ht hl =>
          split at ho
          · cases ho
          · obtain rfl := Option.some.inj ho
            obtain ⟨u, hu, hm', hsp⟩ | ⟨z, hz, -, rfl, hm'⟩ :=
              munch_left_line (x := c :: s) hm hw hx (by simp) ht
            · refine stop (hwhole.left hw) hl hu hm' ?_
              have := tally_spaces hr hsp
              omega
            · subst hl
              refine step ?_ hr
              rw [(hwhole.left hw).bite_line hm' ht, if_neg hz]
        | token hwhole hm ht hsl =>
          obtain rfl := Option.some.inj ho
          obtain ⟨z, hz, rfl⟩ := munch_left
            (x := c :: s) hm hw fun d hd ↦ (hwhole.last hm ht d hd).1
          refine step ?_ hr
          have hm' := hwhole.munch_congr hm hsl (x := z) ?_
          · rw [← hz] at hm'
            exact (hwhole.left hw).bite_token hm' ht hsl
          · cases z with
            | nil => exact .inr ⟨ht, nofun⟩
            | cons d z => exact .inl rfl

theorem tally_trimEnd (h : tally lines s = some (n, b)) :
    ∃ b', tally lines (Text.trimEnd s) = some (n, b') := by
  rw [← Text.trimEnd_append_spaceEnd s] at h
  refine tally_left h (fun d hd ↦ ?_) fun d hd ↦ ?_
  · exact Text.mem_takeWhile (List.mem_reverse.1 hd)
  · rw [Text.trimEnd, List.getLast?_reverse] at hd
    have := List.head?_dropWhile_not Text.isSpace s.reverse
    rw [hd] at this
    simpa using this

theorem tally_trimStart (h : tally lines s = some (n, b)) :
    tally lines (Text.trimStart s) = some (n, b) := by
  induction s generalizing n with
  | nil => exact h
  | cons c s ih =>
    rw [Text.trimStart]
    cases hc : Text.isSpace c with
    | false => rwa [List.dropWhile_cons_of_neg (by simp [hc])]
    | true =>
      rw [List.dropWhile_cons_of_pos hc]
      obtain ⟨hb, -⟩ | ⟨k, r, hb, hr⟩ := bite_of_tally h (List.cons_ne_nil c s)
      · cases (bite_space hb hc).2
      · obtain ⟨rfl, e⟩ := bite_space hb hc
        obtain rfl := Option.some.inj e
        rw [Int.sub_zero] at hr
        exact ih hr

theorem tally_trim (h : tally lines s = some (n, b)) :
    ∃ b', tally lines (Text.trim s) = some (n, b') := by
  obtain ⟨b', h'⟩ := tally_trimEnd h
  exact ⟨b', tally_trimStart h'⟩

/-- Where line comments are not read none goes on at the end. -/
theorem tally_code (h : tally false s = some (n, b)) : b = false := by
  induction hn : s.length using Nat.strongRecOn generalizing s n with
  | ind k ih =>
    by_cases hs : s = []
    · subst hs
      exact (Prod.mk.inj (Option.some.inj (tally_nil.symm.trans h))).2.symm
    · obtain ⟨hb, -⟩ | ⟨d, r, hb, hr⟩ := bite_of_tally h hs
      · generalize ho : none = o at hb
        cases bites_of_bite hb with
        | opening | closing | loose | sign | token => cases ho
        | line _ _ _ hl => cases hl
      · exact ih _ (hn ▸ (bite_suffix hb).2) hr rfl

/-- What is read without line comments is read alike with them. -/
theorem tally_lines (h : tally false s = some (n, b)) : tally lines s = some (n, b) := by
  induction hn : s.length using Nat.strongRecOn generalizing s n with
  | ind k ih =>
    by_cases hs : s = []
    · subst hs
      rw [tally_nil] at h ⊢
      exact h
    · obtain ⟨hb, -⟩ | ⟨d, r, hb, hr⟩ := bite_of_tally h hs
      · generalize ho : none = o at hb
        cases bites_of_bite hb with
        | opening | closing | loose | sign | token => cases ho
        | line _ _ _ hl => cases hl
      · have hb' : bite lines s = some (d, some r) := by
          generalize ho : some r = o at hb ⊢
          cases bites_of_bite hb with
          | opening | closing => rfl
          | loose hc => exact bite_loose hc
          | sign hc => exact bite_sign hc
          | line _ _ _ hl => cases hl
          | token hw hm ht hsl => exact hw.bite_token hm ht hsl
        rw [tally_of_bite hb', ih _ (hn ▸ (bite_suffix hb).2) hr rfl, Option.map_some,
          show d + (n - d) = n by omega]

/-- A line break ends what goes on at the end of a text. -/
theorem tally_newline (h : tally lines x = some (n, b)) (y : Text) :
    tally lines (x ++ '\n' :: y) = (tally lines y).map fun p ↦ (n + p.1, p.2) := by
  have hloose : isLoose '\n' = true := by decide
  induction hn : x.length using Nat.strongRecOn generalizing x n with
  | ind k ih =>
    by_cases hx : x = []
    · subst hx
      obtain ⟨rfl, -⟩ := Prod.mk.inj (Option.some.inj (tally_nil.symm.trans h))
      rw [List.nil_append, tally_loose hloose]
      cases tally lines y <;> simp
    · obtain ⟨hb, -⟩ | ⟨d, r, hb, hr⟩ := bite_of_tally h hx
      · generalize ho : none = o at hb
        cases bites_of_bite hb with
        | opening | closing | loose | sign | token => cases ho
        | @line c s t r hw hm ht hl =>
          split at ho
          · subst_vars
            obtain ⟨k, u⟩ := t
            obtain ⟨hk, hu⟩ : k = .comment ∧ ['-', '-'].isPrefixOf u = true := by
              simpa [isLineComment] using ht
            subst hk
            obtain rfl : c :: s = u := (munch_eq_some hm).2.trans (List.append_nil u)
            have hm : munch (c :: s ++ []) = some (⟨.comment, c :: s⟩, []) := by
              rwa [List.append_nil]
            have hm' : munch (c :: s ++ '\n' :: y) = some (⟨.comment, c :: s⟩, '\n' :: y) :=
              (munch_lineComment_iff hu).2 ⟨((munch_lineComment_iff hu).1 hm).1, by simp⟩
            have hb := (hw.append ('\n' :: y)).bite_line hm' ht
            rw [if_neg (by simp)] at hb
            rw [List.cons_append, tally_skip hb, tally_loose hloose]
            cases tally true y <;> simp
          · cases ho
      · rw [tally_of_bite (bite_append hb fun _ ↦ .inl (by simp [Delimited]; decide)),
          ih _ (hn ▸ (bite_suffix hb).2) hr rfl, Option.map_map]
        congr
        funext p
        simp only [Function.comp_apply, Prod.mk.injEq, and_true]
        omega

end QueryTemplate
