import QueryTemplate.Proofs.Query.Gathers
import QueryTemplate.Proofs.Query.Printed
import QueryTemplate.Proofs.Query.Woven
import QueryTemplate.Proofs.Token.Split
namespace QueryTemplate

open Token Fragment

variable {q : Query} {ts : List Token}

/-- The tokens without the white space around them. -/
def core (ts : List Token) : List Token := (trimmed ts).dropWhile isBlank

theorem head_core : ∀ t ∈ (core ts).head?, t.isBlank = false := head_dropWhile_isBlank

theorem inked_blankEnd (ts : List Token) : inked (blankEnd ts) = [] :=
  inked_blanks fun t ht ↦ by simpa [Token.isBlank] using isBlank_of_mem_blankEnd ht

theorem inked_trimmed (ts : List Token) : inked (trimmed ts) = inked ts := by
  have h := congrArg inked (trimmed_append_blankEnd ts)
  rwa [inked_append, inked_blankEnd, List.append_nil] at h

theorem inked_core (ts : List Token) : inked (core ts) = inked ts := by
  have hstart : inked ((trimmed ts).takeWhile isBlank) = [] :=
    inked_blanks fun t ht ↦ by simpa [Token.isBlank] using List.mem_takeWhile_imp ht
  have h := List.takeWhile_append_dropWhile (p := isBlank) (l := trimmed ts)
  rw [← inked_trimmed ts, ← h, inked_append, hstart, List.nil_append]
  rfl

/-- Tokens between blanks. -/
theorem exists_core (ts : List Token) : ∃ gs hs, ts = gs ++ (core ts ++ hs) ∧ (∀ t ∈ gs, t.isBlank = true) ∧
    ∀ t ∈ hs, t.isBlank = true := by
  refine ⟨(trimmed ts).takeWhile isBlank, blankEnd ts, ?_, fun t ht ↦ List.mem_takeWhile_imp ht,
    fun t ht ↦ isBlank_of_mem_blankEnd ht⟩
  rw [core, ← List.append_assoc, List.takeWhile_append_dropWhile, trimmed_append_blankEnd]

theorem core_sublist (ts : List Token) : (core ts).Sublist ts :=
  (List.dropWhile_sublist _).trans (List.rdropWhile_prefix _ ts).sublist

theorem balanced_core (h : Balanced ts) : Balanced (core ts) := by
  obtain ⟨gs, hs, he, hg, hh⟩ := exists_core ts
  rw [he, Balanced, depthRun_append, depthRun_blanks hg, Option.bind_some, depthRun_append] at h
  obtain ⟨n, hn, h⟩ := Option.bind_eq_some_iff.1 h
  rw [depthRun_blanks hh] at h
  exact hn.trans h

theorem covered_core {p : Token → Bool} (h : Covered p 0 ts) : Covered p 0 (core ts) := by
  obtain ⟨gs, hs, he, hg, -⟩ := exists_core ts
  rw [he, covered_append, depthAfter_of_depthRun (depthRun_blanks hg), covered_append] at h
  exact h.2.1

/-- A text without white space around it is read as the tokens of the text without those. -/
theorem tokens_trim (h : Lexed ts) (hc : ∀ t ∈ ts, t.kind ≠ .comment) :
    tokens? (Text.trim (textOf ts)) = .ok (core ts) := by
  have hl := lexed_trimmed h hc
  have htrim : Text.trim (textOf (trimmed ts)) = textOf (core ts) :=
    hl.trim_eq (fun t ht ↦ hc t (mem_of_mem_trimmed ht)) fun t ht ↦ by
      simpa [Token.isBlank] using (last_trimmed hc t ht).1
  have hcore : Lexed (core ts) := by
    rw [← List.takeWhile_append_dropWhile (p := isBlank) (l := trimmed ts)] at hl
    exact hl.suffix
  refine tokens?_eq_ok_iff.2 ⟨?_, hcore⟩
  rw [← htrim, ← h.trimEnd hc, Text.trim, trimEnd_trimEnd, Text.trim]

/-- Nothing is left of a text exactly if it is white space. -/
theorem trim_eq_nil_iff (h : Lexed ts) (hc : ∀ t ∈ ts, t.kind ≠ .comment) :
    Text.trim (textOf ts) = [] ↔ inked ts = [] := by
  obtain ⟨htext, hl⟩ := tokens?_eq_ok_iff.1 (tokens_trim h hc)
  rw [← htext, ← inked_core ts]
  cases hr : core ts with
  | nil => simp
  | cons t us =>
    rw [hr] at hl
    have ht : t.isBlank = false := head_core t (by rw [hr]; rfl)
    simp [hl.text_ne_nil, inked_cons ht]

/-- The arguments of a text that are not empty stand between its commas. -/
theorem splitArguments_inked {s : Text} (hs : tokens? s = .ok ts)
    (hc : ∀ t ∈ ts, t.kind ≠ .comment) :
    ∃ args, splitArguments s = .ok args ∧ args.filter (· ≠ []) =
      ((splitOutside isComma ts).filter isInked).map (Text.trim ∘ textOf) := by
  obtain ⟨rfl, hl⟩ := tokens?_eq_ok_iff.1 hs
  have hrun : ∀ r ∈ splitOutside isComma ts,
      decide ((Text.trim ∘ textOf) r ≠ []) = isInked r := by
    intro r hr
    have hlr := (lexed_of_mem_splitOutside isCut_of_isComma hl r hr).1
    have hcr := fun t ht ↦ hc t ((sublist_of_mem_splitOutside hr).subset ht)
    exact decide_eq_decide.2 (not_congr (trim_eq_nil_iff hlr hcr))
  by_cases hne : Text.trim (textOf ts) = []
  · refine ⟨[], by rw [splitArguments, if_pos hne], ?_⟩
    have hnil : ∀ r ∈ splitOutside isComma ts, ¬isInked r = true := by
      intro r hr
      have := inked_part (isInfix_of_mem_splitOutside hr)
      rw [(trim_eq_nil_iff hl hc).1 hne, List.infix_nil] at this
      simp [isInked, this]
    rw [List.filter_eq_nil_iff.2 hnil]
    rfl
  · refine ⟨(splitOutside isComma ts).map (Text.trim ∘ textOf), ?_, ?_⟩
    · rw [splitArguments, if_neg hne, hs, Except.map, argumentsOf, if_neg hne]
    · rw [List.filter_map]
      exact congrArg _ (List.filter_congr hrun)

/-- The item that tokens make is read as those tokens, with the spaces that they get in it. -/
theorem tokens_woven (h : Lexed ts) (hn : ∀ t ∈ ts, Neat t) (ha : PointsApart none ts) :
    tokens? (written ts).text = .ok (woven {} ts) := by
  have hlex : ∀ t ∈ ts, Lexical t ∧ Neat t := fun t ht ↦ ⟨h.lexical t ht, hn t ht⟩
  obtain ⟨hrel, -, -⟩ := (Ending.nil (z := []) rfl).onward.weave endsIn_empty hlex ha
  rw [List.append_nil, List.append_nil] at hrel
  exact tokens?_eq_ok_iff.2 ⟨(text_extend {} ts).symm, hrel.lexed h⟩

/-- Both texts can be read, as the same tokens but for white space. -/
def SameTokens (x y : Text) : Prop :=
  ∃ us vs, tokens? x = .ok us ∧ tokens? y = .ok vs ∧ inked us = inked vs

/-- An item is read as the argument that it is made of. -/
theorem Makes.sameTokens {x : Text} (h : Makes ts x) (hl : Lexed ts)
    (hk : ∀ t ∈ ts, t.kind ≠ .membership ∧ Neat t) (ha : PointsApart none ts) :
    SameTokens x (Text.trim (textOf ts)) := by
  have hn : ∀ t ∈ ts, Neat t := fun t ht ↦ (hk t ht).2
  rw [h fun t ht ↦ (hk t ht).1]
  exact ⟨_, _, tokens_woven hl hn ha, tokens_trim hl fun t ht ↦ (hn t ht).1,
    (inked_woven {} ts).trans (inked_core ts).symm⟩

/-- A text that is read as a list has as many items as there are arguments in it that are not
empty, and they consist of the same tokens. -/
theorem root_matches_arguments {s : Text} (hs : tokens? s = .ok ts) (hb : Balanced ts)
    (hc : ∀ t ∈ ts, t.kind ≠ .comment) (hq : parse s = .ok q) (hr : q.isBareRoot = true) :
    ∃ args, splitArguments s = .ok args ∧
      q.root.length = (args.filter (· ≠ [])).length ∧
      ((∀ t ∈ ts, t.kind ≠ .membership ∧ Neat t) → PointsApart none ts →
        List.Forall₂ SameTokens q.root (args.filter (· ≠ []))) := by
  obtain ⟨args, hargs, hfilter⟩ := splitArguments_inked hs hc
  obtain ⟨rfl, hl⟩ := tokens?_eq_ok_iff.1 hs
  rw [parse_textOf hl] at hq
  have hg : Draft.Gathers [] 0 {} := .nil rfl rfl
  obtain ⟨xs, hroot, hxs⟩ := hg.parse (fun t ht ↦ ⟨hl.lexical t ht, hc t ht⟩) hb hq
    (Query.unopened_of_isBareRoot hr)
  have hmade : List.Forall₂ Makes ((splitOutside isComma ts).filter isInked) q.root := by
    rw [hroot]
    simpa [splitOutside, Sections.runs] using hxs
  refine ⟨args, hargs, by rw [hfilter, List.length_map, hmade.length_eq], fun hk ha ↦ ?_⟩
  rw [hfilter, List.forall₂_map_right_iff]
  refine List.Forall₂.flip ?_
  have hrun : ∀ r ∈ (splitOutside isComma ts).filter isInked,
      ∀ x, Makes r x → SameTokens x (Text.trim (textOf r)) := by
    intro r hr x hx
    have hr := List.mem_of_mem_filter hr
    obtain ⟨a, b, hab⟩ := isInfix_of_mem_splitOutside hr
    rw [← hab] at hk ha
    exact hx.sameTokens (lexed_of_mem_splitOutside isCut_of_isComma hl r hr).1
      (fun t ht ↦ hk t (by simp [ht])) ha.left.right
  exact ((List.forall₂_and_left _ _).2 ⟨hrun, hmade⟩).imp fun r x h ↦ h.1 x h.2

theorem root_matches_arguments_nested :
    let s : Text := "f ( a,(SELECT b, c) ), , 'x,y'  AS d ,[1 ,2]"
    let q : Query := { root := ["f(a, (SELECT b, c))", "'x,y' AS d", "[1", "2]"] }
    parse s = .ok q ∧ ∃ args, splitArguments s = .ok args ∧ args.length = 5 ∧
      List.Forall₂ SameTokens q.root (args.filter (· ≠ [])) := by
  intro s q
  have hts : (scan s).rest = [] ∧ Balanced (scan s).tokens ∧
      (∀ t ∈ (scan s).tokens, t.kind ≠ .comment) ∧
      (∀ t ∈ (scan s).tokens, t.kind ≠ .membership ∧ Neat t) ∧
      PointsApart none (scan s).tokens := by decide +kernel
  obtain ⟨hrest, hb, hc, hk, ha⟩ := hts
  have hs : tokens? s = .ok (scan s).tokens := by simp [tokens?, atEnd, hrest]
  have hq : parse s = .ok q := toOption_eq_some.1 (by decide +kernel)
  have hr : q.isBareRoot = true := by decide +kernel
  obtain ⟨args, hargs, -, hsame⟩ := root_matches_arguments hs hb hc hq hr
  have hfive : splitArguments s =
      .ok ["f ( a,(SELECT b, c) )", [], "'x,y'  AS d", "[1", "2]"] :=
    toOption_eq_some.1 (by decide +kernel)
  obtain rfl := Except.ok.inj (hargs.symm.trans hfive)
  exact ⟨hq, _, hargs, rfl, hsame hk ha⟩

end QueryTemplate
