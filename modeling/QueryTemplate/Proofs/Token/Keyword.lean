import QueryTemplate.Proofs.Token.Lexed
namespace QueryTemplate

open Token Grammar

namespace Text

theorem splitBy_append {p : Char → Bool} {a : Text} (h : ∀ c ∈ a, p c = false) (s : Text) :
    splitBy p (a ++ s) = (splitBy p s).modifyHead (a ++ ·) := by
  induction a with
  | nil => cases hs : splitBy p s <;> simp [hs]
  | cons c a ih =>
    rw [List.cons_append, splitBy, h c List.mem_cons_self,
      ih fun d hd ↦ h d (List.mem_cons_of_mem _ hd)]
    cases splitBy p s <;> simp

theorem words_append_space {g : Text} (h : ∀ c ∈ g, isSpace c = true) (s : Text) :
    words (g ++ s) = words s := by
  induction g with
  | nil => rfl
  | cons c g ih =>
    have ih := ih fun d hd ↦ h d (List.mem_cons_of_mem _ hd)
    rw [List.cons_append, words, splitBy, if_pos (h c List.mem_cons_self)]
    simpa [words] using ih

theorem words_append {a : Text} (ha : ∀ c ∈ a, isSpace c = false) (hne : a ≠ []) {c : Char}
    (hc : isSpace c = true) (s : Text) : words (a ++ c :: s) = a :: words s := by
  rw [words, splitBy_append ha, splitBy, if_pos hc]
  simp [words, hne]

theorem words_of_no_space {a : Text} (ha : ∀ c ∈ a, isSpace c = false) (hne : a ≠ []) :
    words a = [a] := by
  have := splitBy_append ha []
  rw [List.append_nil] at this
  rw [words, this]
  simp [splitBy, hne]

section Pieces

variable {p : Char → Bool} {c : Char} {s a b : Text}

theorem splitBy_ne_nil (p : Char → Bool) (s : Text) : splitBy p s ≠ [] := by
  cases s with
  | nil => exact nofun
  | cons c s =>
    rw [splitBy]
    split
    · exact nofun
    · simpa using splitBy_ne_nil p s

theorem splitBy_append_cons (hc : p c = true) (a b : Text) :
    splitBy p (a ++ c :: b) = splitBy p a ++ splitBy p b := by
  induction a with
  | nil => simp [splitBy, hc]
  | cons d a ih =>
    rw [List.cons_append, splitBy, splitBy, ih]
    split
    · rfl
    · obtain ⟨x, xs, hx⟩ := List.exists_cons_of_ne_nil (splitBy_ne_nil p a)
      simp [hx]

/-- The pieces have the characters of the text other than the separators. -/
theorem of_mem_splitBy (h : a ∈ splitBy p s) : ∀ c ∈ a, c ∈ s ∧ p c = false := by
  induction s generalizing a with
  | nil =>
    obtain rfl := List.mem_singleton.1 h
    exact nofun
  | cons d s ih =>
    have hs : ∀ {x}, x ∈ splitBy p s → ∀ c ∈ x, c ∈ d :: s ∧ p c = false :=
      fun hx c hc ↦ ⟨List.mem_cons_of_mem _ (ih hx c hc).1, (ih hx c hc).2⟩
    rw [splitBy] at h
    split at h
    · rcases List.mem_cons.1 h with rfl | h
      · exact nofun
      · exact hs h
    · rename_i hd
      obtain ⟨x, xs, hx⟩ := List.exists_cons_of_ne_nil (splitBy_ne_nil p s)
      rw [hx] at h hs
      rcases List.mem_cons.1 h with rfl | h
      · exact List.forall_mem_cons.2 ⟨⟨List.mem_cons_self, by simpa using hd⟩, hs List.mem_cons_self⟩
      · exact hs (List.mem_cons_of_mem _ h)

theorem splitBy_of_none (h : ∀ c ∈ s, p c = false) : splitBy p s = [s] := by
  have := splitBy_append h []
  rwa [List.append_nil, splitBy, List.modifyHead_cons, List.append_nil] at this

theorem eq_of_splitBy (h : splitBy p s = [a]) : a = s ∧ ∀ c ∈ s, p c = false := by
  induction s generalizing a with
  | nil => exact ⟨(List.cons.inj h).1.symm, nofun⟩
  | cons d s ih =>
    rw [splitBy] at h
    split at h
    · exact absurd (List.cons.inj h).2 (splitBy_ne_nil p s)
    · rename_i hd
      obtain ⟨x, xs, hx⟩ := List.exists_cons_of_ne_nil (splitBy_ne_nil p s)
      rw [hx] at h ih
      obtain ⟨rfl, rfl⟩ := List.cons.inj h
      obtain ⟨rfl, hs⟩ := ih rfl
      exact ⟨rfl, List.forall_mem_cons.2 ⟨by simpa using hd, hs⟩⟩

/-- Two texts with a separator between them are the only two pieces if neither has one. -/
theorem eq_of_splitBy_pair (hc : p c = true) {x y : Text} (h : splitBy p (a ++ c :: b) = [x, y]) :
    splitBy p a = [x] ∧ splitBy p b = [y] := by
  rw [splitBy_append_cons hc] at h
  obtain ⟨u, us, hu⟩ := List.exists_cons_of_ne_nil (splitBy_ne_nil p a)
  obtain ⟨v, vs, hv⟩ := List.exists_cons_of_ne_nil (splitBy_ne_nil p b)
  rw [hu, hv] at h ⊢
  cases us with
  | nil => simpa using h
  | cons u' us => simp at h

theorem isSpace_of_mem_words (h : a ∈ words s) : ∀ c ∈ a, isSpace c = false :=
  fun c hc ↦ (of_mem_splitBy (List.mem_filter.1 h).1 c hc).2

/-- White space between two texts separates their words. -/
theorem words_append_cons (hc : isSpace c = true) (a b : Text) :
    words (a ++ c :: b) = words a ++ words b := by
  rw [words, splitBy_append_cons hc, List.filter_append, words, words]

theorem words_append_spaces {g : Text} (h : ∀ c ∈ g, isSpace c = true) (s : Text) :
    words (s ++ g) = words s := by
  cases g with
  | nil => rw [List.append_nil]
  | cons c g =>
    obtain ⟨hc, hg⟩ := List.forall_mem_cons.1 h
    have hnil : words g = [] := by
      have := words_append_space hg []
      rwa [List.append_nil] at this
    rw [words_append_cons hc, hnil, List.append_nil]

theorem words_trim (s : Text) : words (trim s) = words s := by
  have hend : words (trimEnd s) = words s := by
    have h : ∀ c ∈ spaceEnd s, isSpace c = true :=
      fun c hc ↦ mem_takeWhile (List.mem_reverse.1 hc)
    rw [← words_append_spaces h, trimEnd_append_spaceEnd]
  have hstart := words_append_space (g := (trimEnd s).takeWhile isSpace)
    (fun c hc ↦ mem_takeWhile hc) ((trimEnd s).dropWhile isSpace)
  rw [List.takeWhile_append_dropWhile] at hstart
  rw [trim, trimStart, ← hstart, hend]

end Pieces

theorem isSpace_of_isNameChar {c : Char} (h : isNameChar c = true) : isSpace c = false := by
  simp only [isNameChar, Char.isAlphanum, isAlpha_iff, Char.isDigit, ge_iff_le, Bool.or_eq_true,
    Bool.and_eq_true, decide_eq_true_eq, UInt32.le_iff_toNat_le] at h
  have hu : c = '_' → c.toNat = 95 := by rintro rfl; rfl
  have hv : c.val.toNat = c.toNat := rfl
  simp only [UInt32.reduceToNat, Char.reduceVal, hv] at h
  simp only [isSpace, Bool.or_eq_false_iff, Bool.and_eq_false_iff, decide_eq_false_iff_not]
  rcases h with ((h | h) | h) | h
  · omega
  · omega
  · omega
  · have := hu h
    omega

end Text

namespace Grammar

theorem words_of_pastWord {n : Nat} {u : Text} (h : pastWord n u = [])
    (hn : n < (leadingWords u).length) (hw : ∀ w ∈ (leadingWords u).take (n + 1), w ≠ []) :
    (Text.words u).map Text.lower = (leadingWords u).take (n + 1) := by
  induction n generalizing u with
  | zero =>
    have ha : ∀ c ∈ u, Text.isNameChar c = true := by
      have e := List.takeWhile_append_dropWhile (p := Text.isNameChar) (l := u)
      rw [show u.dropWhile Text.isNameChar = [] from h, List.append_nil] at e
      exact fun c hc ↦ Text.mem_takeWhile (e ▸ hc)
    have hl := leadingWords_append_of_name ha (Text.stops_nil _)
    rw [List.append_nil] at hl
    rw [hl] at hw ⊢
    have hne : u ≠ [] := by
      rintro rfl
      simp at hw
    rw [Text.words_of_no_space (fun c hc ↦ Text.isSpace_of_isNameChar (ha c hc)) hne]
    rfl
  | succ n ih =>
    have hs : spaced u = true := by
      cases e : spaced u with
      | true => rfl
      | false => simp [leadingWords_of_not_spaced e] at hn
    obtain ⟨a, g, ha, hg, hg', e⟩ := exists_gap_of_spaced hs
    have hst : Text.Stops Text.isBlank (skipWord u) := Text.stops_dropWhile _ _
    have hl := (leadingWords_append_of_gap ha hg hg' hst).1
    rw [← e] at hl
    rw [hl] at hn hw ⊢
    obtain ⟨c, g, rfl⟩ := List.exists_cons_of_ne_nil hg'
    have hne : a ≠ [] := by
      rintro rfl
      simp at hw
    have hsp := fun d hd ↦ Text.isSpace_of_isBlank (hg d hd)
    have hword : Text.words u = a :: Text.words (skipWord u) := by
      refine (congrArg Text.words e).trans ?_
      rw [List.cons_append, Text.words_append (fun d hd ↦ Text.isSpace_of_isNameChar (ha d hd)) hne
        (hsp c List.mem_cons_self),
        Text.words_append_space fun d hd ↦ hsp d (List.mem_cons_of_mem _ hd)]
    rw [hword, List.map_cons, List.take_succ_cons,
      ih h (by simpa using hn) fun w hw' ↦ hw w (List.mem_cons_of_mem _ hw')]

theorem pastWord_prefix (n : Nat) (s : Text) : ∃ p : Text,
    (∀ c ∈ p, Text.isNameChar c = true ∨ Text.isBlank c = true) ∧ s = p ++ pastWord n s := by
  induction n generalizing s with
  | zero =>
    exact ⟨_, fun c hc ↦ .inl (Text.mem_takeWhile hc), List.takeWhile_append_dropWhile.symm⟩
  | succ n ih =>
    obtain ⟨p, hp, e⟩ := ih (skipWord s)
    refine ⟨s.takeWhile Text.isNameChar ++ (s.dropWhile Text.isNameChar).takeWhile Text.isBlank ++
      p,
      fun c hc ↦ ?_, ?_⟩
    · rw [List.mem_append, List.mem_append] at hc
      rcases hc with (hc | hc) | hc
      · exact .inl (Text.mem_takeWhile hc)
      · exact .inr (Text.mem_takeWhile hc)
      · exact hp c hc
    · rw [pastWord_succ, List.append_assoc, ← e, List.append_assoc, skipWord,
        List.takeWhile_append_dropWhile, List.takeWhile_append_dropWhile]

end Grammar

namespace Token.ReadBefore

variable {t : Token} {s : Text}

theorem word_chars (h : t.ReadBefore s) (ht : t.isWord = true) :
    ∀ c ∈ t.text, Text.isNameChar c = true ∨ Text.isBlank c = true := by
  obtain ⟨n, -, hpast⟩ := (munch_word_iff ht).1 h
  obtain ⟨p, hp, e⟩ := pastWord_prefix n (t.text ++ s)
  rw [hpast] at e
  rwa [List.append_cancel_right e]

/-- A word is of the class that its own words have before those that follow it. -/
theorem classify_word (h : t.ReadBefore s) (ht : t.isWord = true) :
    (Text.words t.text).map Text.lower = leadingWords t.text ∧
      classify (leadingWords t.text ++ follow s) = some (t.kind, (leadingWords t.text).length) := by
  obtain ⟨n, hk, hpast⟩ := (munch_word_iff ht).1 h
  obtain ⟨h₁, hl, -, hne⟩ := leadingWords_of_munch_word ht hk hpast (h.stops_word ht)
  obtain ⟨-, -, h₂, -⟩ := leadingWords_of_munch_word ht hk hpast (Text.stops_nil _)
  have hself : (leadingWords t.text).take (n + 1) = leadingWords t.text := by
    rw [← hl, List.take_length]
  rw [List.append_nil] at h₂
  refine ⟨?_, ?_⟩
  · rw [words_of_pastWord h₂ (by omega) (by rwa [hself]), hself]
  · rw [hl, ← hk, h₁]

theorem keyword_eq (h : t.ReadBefore s) (ht : t.isWord = true) :
    t.keyword = Text.join [' '] (leadingWords t.text) := by
  rw [Token.keyword, (h.classify_word ht).1]

end Token.ReadBefore

theorem Lexed.word_chars {t : Token} {ts : List Token} (h : Lexed (t :: ts))
    (ht : t.isWord = true) :
    ∀ c ∈ t.text, Text.isNameChar c = true ∨ Text.isBlank c = true := h.readBefore.word_chars ht

theorem Lexed.classify_word {t : Token} {ts : List Token} (h : Lexed (t :: ts))
    (ht : t.isWord = true) :
    (Text.words t.text).map Text.lower = leadingWords t.text ∧
      classify (leadingWords t.text ++ tokenWords ts) =
          some (t.kind, (leadingWords t.text).length) := by
  obtain ⟨h₁, h₂⟩ := h.readBefore.classify_word ht
  refine ⟨h₁, ?_⟩
  rw [← h₂]
  exact classify_append_congr (leadingWords_ne_nil _)
    (phraseRest_follow h.tail (h.stops_word ht)).symm

theorem Lexed.keyword_eq {t : Token} {ts : List Token} (h : Lexed (t :: ts))
    (ht : t.isWord = true) :
    t.keyword = Text.join [' '] (leadingWords t.text) := h.readBefore.keyword_eq ht

theorem Lexed.isWord_of_kind {t : Token} {ts : List Token} (h : Lexed (t :: ts))
    (hk : family t.kind = .identifier) : t.isWord = true := h.isWord_iff.2 hk

theorem eq_of_phraseWords {ps : List (List Text)} {ws us : List Text}
    (h : phraseWords ps (ws ++ us) = some ws.length) : ws ∈ ps := by
  obtain ⟨p, e, hp⟩ := Option.map_eq_some_iff.1 h
  have hpre := List.isPrefixOf_iff_prefix.1
    (List.find?_some (p := fun q : List Text ↦ q.isPrefixOf _) e)
  have := List.prefix_iff_eq_take.1 hpre
  rw [hp, List.take_left' rfl] at this
  exact this ▸ List.mem_of_find?_eq_some e

/-- The words of a clause keyword. -/
theorem Token.ReadBefore.clause_words {t : Token} {s : Text} (h : t.ReadBefore s)
    (hk : t.kind = .clause) :
    leadingWords t.text ∈ ["with".toList] :: clausePhrases := by
  have hw := h.isWord_iff.2 (by rw [hk]; rfl)
  have hc := (h.classify_word hw).2
  rw [hk] at hc
  obtain ⟨⟨k, f⟩, hf, e⟩ := List.exists_of_findSome?_eq_some hc
  obtain ⟨m, hm, e⟩ := Option.map_eq_some_iff.1 e
  obtain ⟨rfl, rfl⟩ := Prod.mk.inj e
  simp only [wordClasses, List.mem_cons, Prod.mk.injEq, List.not_mem_nil, or_false, reduceCtorEq,
    false_and, or_false, true_and] at hf
  subst hf
  simp only [clauseWords] at hm
  split at hm
  · rename_i e
    exact List.mem_cons_of_mem _ (eq_of_phraseWords (hm ▸ e))
  · split at hm
    · rename_i hh
      have hl := Option.some.inj hm
      obtain ⟨v, hv⟩ := List.length_eq_one_iff.1 hl.symm
      rw [hv] at hh ⊢
      have hv' : v = "with".toList := by simpa using hh.1
      rw [hv']
      exact List.mem_cons_self
    · cases hm

theorem Lexed.clause_words {t : Token} {ts : List Token} (h : Lexed (t :: ts))
    (hk : t.kind = .clause) :
    leadingWords t.text ∈ ["with".toList] :: clausePhrases := h.readBefore.clause_words hk

theorem Lexed.conjunction_words {t : Token} {ts : List Token} (h : Lexed (t :: ts))
    (hk : t.kind = .conjunction) : leadingWords t.text ∈ [["and".toList], ["or".toList]] := by
  have hw := h.isWord_of_kind (by rw [hk]; rfl)
  have hc := (h.classify_word hw).2
  rw [hk] at hc
  obtain ⟨⟨k, f⟩, hf, e⟩ := List.exists_of_findSome?_eq_some hc
  obtain ⟨m, hm, e⟩ := Option.map_eq_some_iff.1 e
  obtain ⟨rfl, rfl⟩ := Prod.mk.inj e
  simp only [wordClasses, List.mem_cons, Prod.mk.injEq, List.not_mem_nil, or_false, reduceCtorEq,
    false_and, or_false, false_or, true_and] at hf
  subst hf
  exact eq_of_phraseWords hm

/-- No word goes on with `AND` and `OR`. -/
theorem Lexed.conjunction_fixed {t : Token} {ts : List Token} (h : Lexed (t :: ts))
    (hk : t.kind = .conjunction) :
    leadingWords t.text ∈ fixedPhrases := by
  have hf : ∀ p ∈ [["and".toList], ["or".toList]], p ∈ fixedPhrases := by decide
  exact hf _ (h.conjunction_words hk)

theorem Token.ReadBefore.clause_head {t : Token} {s : Text} (h : t.ReadBefore s)
    (hk : t.kind = .clause) :
    ∃ w ws, leadingWords t.text = w :: ws ∧ w ∉ continuations ∧ ∃ c ∈ w, isNumeric c = false := by
  have hc : ∀ p ∈ ["with".toList] :: clausePhrases, ∃ w ∈ p.head?, w ∉ continuations ∧
      w.any (!isNumeric ·) = true := by decide
  obtain ⟨w, hw, hn, hx⟩ := hc _ (h.clause_words hk)
  obtain ⟨ws, hws⟩ := List.head?_eq_some_iff.1 hw
  obtain ⟨c, hm, hcn⟩ := List.any_eq_true.1 hx
  exact ⟨w, ws, hws, hn, c, hm, by simpa using hcn⟩

theorem Lexed.clause_head {t : Token} {ts : List Token} (h : Lexed (t :: ts))
    (hk : t.kind = .clause) :
    ∃ w ws, leadingWords t.text = w :: ws ∧ w ∉ continuations ∧ ∃ c ∈ w, isNumeric c = false :=
  h.readBefore.clause_head hk

theorem isNumeric_toLower {c : Char} (h : isNumeric c = true) : isNumeric c.toLower = true := by
  rcases Text.toLower_cases c with ⟨hc, hl⟩ | ⟨-, e⟩
  · simp only [isNumeric, isHexDigit, Char.isDigit, ge_iff_le, Bool.or_eq_true, Bool.and_eq_true,
      decide_eq_true_eq, Char.le_def, UInt32.le_iff_toNat_le] at h ⊢
    simp only [UInt32.reduceToNat, Char.reduceVal] at h ⊢
    have hx : ∀ d : Char, d.val.toNat < 65 ∨ 90 < d.val.toNat → c ≠ d := by
      rintro d hd rfl
      omega
    have h : 65 ≤ c.val.toNat ∧ c.val.toNat ≤ 70 := by
      rcases h with (((((h | h) | h) | h) | h) | h) | h
      · omega
      · omega
      · exact h
      all_goals exact absurd h (hx _ (by decide))
    exact .inl (.inl (.inl (.inl (.inl (.inr (by omega))))))
  · rwa [e]

theorem takeWhile_append_of_not {p : Char → Bool} {u : Text} {c : Char} (h : c ∈ u)
    (hc : p c = false) (x : Text) : (u ++ x).takeWhile p = u.takeWhile p := by
  rw [List.takeWhile_append, if_neg]
  intro e
  have hu : u.takeWhile p = u := (List.takeWhile_prefix p).eq_of_length e
  have hm : c ∈ u.takeWhile p := hu.symm ▸ h
  rw [Text.mem_takeWhile hm] at hc
  cases hc

theorem mem_leadingWords {s : Text} :
    ∀ w ∈ leadingWords s, ∀ c ∈ w, ∃ a, Text.isNameChar a = true ∧ a.toLower = c := by
  induction hn : s.length using Nat.strongRecOn generalizing s with
  | ind n ih =>
    have hword : ∀ c ∈ Text.lower (s.takeWhile Text.isNameChar), ∃ a, Text.isNameChar a = true ∧
        a.toLower = c := by
      intro c hc
      obtain ⟨a, ha, rfl⟩ := List.mem_map.1 hc
      exact ⟨a, Text.mem_takeWhile ha, rfl⟩
    intro w hw
    cases hs : Grammar.spaced s with
    | false =>
      rw [leadingWords_of_not_spaced hs] at hw
      obtain rfl := List.mem_singleton.1 hw
      exact hword
    | true =>
      rw [leadingWords_of_spaced hs] at hw
      rcases List.mem_cons.1 hw with rfl | hw
      · exact hword
      · exact ih _ (hn ▸ skipWord_length hs) rfl w hw

theorem space_not_mem_leadingWords {s w : Text} (hw : w ∈ leadingWords s) : ' ' ∉ w := by
  intro hm
  obtain ⟨a, ha, e⟩ := mem_leadingWords w hw ' ' hm
  rcases Text.toLower_cases a with ⟨hc, hl⟩ | ⟨-, e'⟩
  · rw [e] at hl
    have hspace : ' '.val.toNat = 32 := rfl
    omega
  · rw [← e', e] at ha
    revert ha
    decide

/-- Words without spaces are found again in the phrase that they make. -/
theorem eq_of_join_eq {ws vs : List Text} (hw : ∀ w ∈ ws, ' ' ∉ w) (hv : ∀ v ∈ vs, ' ' ∉ v)
    (hws : ws ≠ []) (hvs : vs ≠ []) (h : Text.join [' '] ws = Text.join [' '] vs) : ws = vs := by
  have hstop : ∀ {w : Text} (x : Text), ' ' ∉ w → (w ++ ' ' :: x).takeWhile (· ≠ ' ') = w := by
    intro w x hw
    rw [List.takeWhile_append_of_pos fun c hc ↦ by simpa using fun e : c = ' ' ↦ hw (e ▸ hc)]
    simp
  have hlong : ∀ (w v : Text) (r : List Text), Text.join [' '] (w :: v :: r) =
    w ++ ' ' :: Text.join [' '] (v :: r) :=
    fun w v r ↦ by simp [Text.join]
  induction ws generalizing vs with
  | nil => exact absurd rfl hws
  | cons w ws ih =>
    obtain ⟨v, vs, rfl⟩ := List.exists_cons_of_ne_nil hvs
    obtain ⟨hw₁, hws'⟩ := List.forall_mem_cons.1 hw
    obtain ⟨hv₁, hvs'⟩ := List.forall_mem_cons.1 hv
    cases ws with
    | nil =>
      cases vs with
      | nil => exact congrArg (fun x ↦ [x]) h
      | cons v' vs =>
        rw [hlong, Text.join] at h
        exact absurd (by simp [h]) hw₁
    | cons w' ws =>
      rw [hlong] at h
      cases vs with
      | nil =>
        rw [Text.join] at h
        exact absurd (by simp [← h]) hv₁
      | cons v' vs =>
        rw [hlong] at h
        have e : w = v := by rw [← hstop (Text.join [' '] (w' :: ws)) hw₁, h, hstop _ hv₁]
        subst e
        rw [ih hws' hvs' (by simp) (by simp) (List.cons.inj (List.append_cancel_left h)).2]

/-- What follows a clause keyword is not seen before it. -/
theorem SameStart.of_clause {t : Token} {b b' : List Token} (h : Lexed (t :: b))
    (hk : t.kind = .clause) :
    SameStart (t :: b) (t :: b') := by
  obtain ⟨w, ws, hw, hn, d, hd, hdn⟩ := h.clause_head hk
  have hword := h.isWord_of_kind (by rw [hk]; rfl)
  have hb : t.isBlank = false := by rw [Token.isBlank, hk]; rfl
  obtain ⟨c, hc, hcn⟩ : ∃ c ∈ t.text, isNumeric c = false := by
    obtain ⟨us, hu⟩ := leadingWords_eq_cons t.text
    rw [hw] at hu
    rw [(List.cons.inj hu).1] at hd
    obtain ⟨c, hc, rfl⟩ := List.mem_map.1 hd
    refine ⟨c, (List.takeWhile_prefix _).subset hc, ?_⟩
    cases e : isNumeric c with
    | false => rfl
    | true => simp [isNumeric_toLower e] at hdn
  refine ⟨?_, ?_, ?_⟩
  · rw [textOf_cons, textOf_cons, h.head_append, h.head_append]
  · rw [tokenWords_word hb hword, tokenWords_word hb hword, hw, List.cons_append, List.cons_append,
      phraseRest, phraseRest, List.takeWhile_cons_of_neg (by simpa using hn),
      List.takeWhile_cons_of_neg (by simpa using hn)]
  · rw [textOf_cons, textOf_cons, takeWhile_append_of_not hc hcn, takeWhile_append_of_not hc hcn]

end QueryTemplate
