import QueryTemplate.Proofs.Token.Relaid
import QueryTemplate.Proofs.Token.Alone
import QueryTemplate.Text.Uppercase
namespace QueryTemplate

open Token Grammar

/-- A phrase of a join as it is printed. -/
def joinTitle (w : Text) : Token := ⟨.join, Text.upper w⟩

variable {v w : Text} {vs ws : List Text} {t : Token} {ts us : List Token}

theorem capital_toLower {c : Char} (h : Text.isNameChar c = true) :
    Text.capital c.toLower = [c.toUpper] ∧ Text.isNameChar c.toUpper = true ∧
      c.toUpper.toLower = c.toLower := by
  have ascii : ∀ n : Fin 128, Text.isNameChar (Char.ofNat n) = true →
      Text.capital (Char.ofNat n).toLower = [(Char.ofNat n).toUpper] ∧
        Text.isNameChar (Char.ofNat n).toUpper = true ∧
        (Char.ofNat n).toUpper.toLower = (Char.ofNat n).toLower := by decide +kernel
  have hc : c.toNat < 128 := by
    simp only [Text.isNameChar, Char.isAlphanum, Text.isAlpha_iff, Char.isDigit, ge_iff_le,
      Bool.or_eq_true, Bool.and_eq_true, decide_eq_true_eq, UInt32.le_iff_toNat_le,
      UInt32.reduceToNat, Char.reduceVal] at h
    rcases h with (h | h) | rfl
    · rw [Char.toNat]
      omega
    · rw [Char.toNat]
      omega
    · decide
  have := ascii ⟨c.toNat, hc⟩
  rw [Char.ofNat_toNat] at this
  exact this h

theorem upper_word (h : ∀ c ∈ w, ∃ a, Text.isNameChar a = true ∧ a.toLower = c) :
    (∀ c ∈ Text.upper w, Text.isNameChar c = true) ∧ Text.lower (Text.upper w) = w := by
  induction w with
  | nil => exact ⟨nofun, rfl⟩
  | cons c w ih =>
    obtain ⟨⟨a, ha, rfl⟩, hw⟩ := List.forall_mem_cons.1 h
    obtain ⟨h₁, h₂⟩ := ih hw
    obtain ⟨hc, hn, hl⟩ := capital_toLower ha
    have e : Text.upper (a.toLower :: w) = a.toUpper :: Text.upper w := by
      rw [Text.upper, List.flatMap_cons, hc]
      rfl
    rw [e]
    refine ⟨List.forall_mem_cons.2 ⟨hn, h₁⟩, ?_⟩
    rw [Text.lower, List.map_cons, hl]
    exact congrArg (a.toLower :: ·) h₂

theorem upper_join (ws : List Text) :
    Text.upper (Text.join [' '] ws) = Text.join [' '] (ws.map Text.upper) := by
  induction ws with
  | nil => rfl
  | cons w ws ih =>
    cases ws with
    | nil => rfl
    | cons v ws =>
      rw [Text.join, List.map_cons, List.map_cons, Text.join, ← List.map_cons, ← ih]
      simp [Text.upper, show Text.capital ' ' = [' '] by decide]

theorem head?_join (hv : v ≠ []) (vs : List Text) :
    (Text.join [' '] (v :: vs)).head? = v.head? := by
  obtain ⟨c, v, rfl⟩ := List.exists_cons_of_ne_nil hv
  cases vs <;> rfl

/-- A phrase of words with a space between neighbours consists of these words. -/
theorem words_of_join (hne : vs ≠ []) (hv : ∀ v ∈ vs, v ≠ [] ∧ ∀ c ∈ v, Text.isNameChar c = true) :
    leadingWords (Text.join [' '] vs) = vs.map Text.lower ∧
      pastWord (vs.length - 1) (Text.join [' '] vs) = [] := by
  induction vs with
  | nil => exact absurd rfl hne
  | cons v vs ih =>
    obtain ⟨⟨-, hn⟩, hvs⟩ := List.forall_mem_cons.1 hv
    cases vs with
    | nil =>
      have hd := Text.dropWhile_append_stops hn (Text.stops_nil _)
      have ht := Text.takeWhile_append_stops hn (Text.stops_nil _)
      rw [List.append_nil] at hd ht
      rw [Text.join, leadingWords_of_not_spaced (by rw [spaced, hd]; rfl), ht]
      exact ⟨rfl, hd⟩
    | cons u vs =>
      obtain ⟨⟨hu, hun⟩, -⟩ := List.forall_mem_cons.1 hvs
      have e : Text.join [' '] (v :: u :: vs) = v ++ ' ' :: Text.join [' '] (u :: vs) := by
        simp [Text.join]
      have hstop : Text.Stops Text.isNameChar (' ' :: Text.join [' '] (u :: vs)) := by
        simp [Text.Stops, Text.isNameChar]
      have ht := Text.takeWhile_append_stops hn hstop
      have hd := Text.dropWhile_append_stops hn hstop
      have hskip : skipWord (v ++ ' ' :: Text.join [' '] (u :: vs)) =
          Text.join [' '] (u :: vs) := by
        rw [skipWord, hd, List.dropWhile_cons_of_pos (by rfl)]
        refine Text.dropWhile_of_stops fun c hc ↦ ?_
        rw [head?_join hu] at hc
        refine Bool.eq_false_iff.2 fun hb ↦ ?_
        have hname := hun c (List.mem_of_head? hc)
        rw [stops_name_of_isBlank hb] at hname
        cases hname
      obtain ⟨h₁, h₂⟩ := ih (by simp) hvs
      rw [e, leadingWords_of_spaced (by rw [spaced, hd]; rfl), hskip, ht, h₁]
      refine ⟨rfl, ?_⟩
      rw [List.length_cons, List.length_cons, Nat.add_sub_cancel, pastWord_succ, hskip]
      exact h₂

/-- A phrase that no word before `JOIN` continues is one of a join, whatever follows it. -/
theorem classify_join (h : joinWords joinParts ws = some ws.length) :
    classify ws = some (.join, ws.length) := by
  obtain ⟨-, hj, hc⟩ := take_joinWords (by decide) h
  rw [List.take_length] at hj hc
  obtain ⟨w, vs, rfl⟩ := List.exists_cons_of_ne_nil (List.ne_nil_of_mem hj)
  have hw := hc w List.mem_cons_self
  have hclause : clauseWords (w :: vs) = none := by
    have hheads : ∀ p ∈ clausePhrases, ∃ v ∈ p.head?, v ∉ continuations := by decide
    have hnone : phraseWords clausePhrases (w :: vs) = none := by
      rw [phraseWords, Option.map_eq_none_iff, List.find?_eq_none]
      intro p hp hpre
      obtain ⟨v, hv, hn⟩ := hheads p hp
      obtain ⟨r, rfl⟩ := List.head?_eq_some_iff.1 hv
      obtain ⟨rfl, -⟩ := List.cons_prefix_cons.1 (List.isPrefixOf_iff_prefix.1 hpre)
      exact hn hw
    rw [clauseWords, hnone]
    refine if_neg fun e ↦ ?_
    have hwith : "with".toList ∉ continuations := by decide
    obtain rfl := Option.some.inj e.1
    exact hwith hw
  simp only [classify, wordClasses, List.findSome?_cons, hclause, h, Option.map_none,
    Option.map_some]

theorem joinWords_of_lexed (h : Lexed (t :: ts)) (hk : t.kind = .join) :
    joinWords joinParts (leadingWords t.text) = some (leadingWords t.text).length := by
  have hw := h.isWord_of_kind (by rw [hk]; rfl)
  obtain ⟨-, hc⟩ := h.classify_word hw
  rw [hk] at hc
  obtain ⟨⟨k, f⟩, hf, e⟩ := List.exists_of_findSome?_eq_some hc
  obtain ⟨m, hm, e⟩ := Option.map_eq_some_iff.1 e
  obtain ⟨rfl, rfl⟩ := Prod.mk.inj e
  simp only [wordClasses, List.mem_cons, Prod.mk.injEq, List.not_mem_nil, or_false, reduceCtorEq,
    false_and, or_false, false_or, true_and] at hf
  subst hf
  obtain ⟨-, hj, -⟩ := take_joinWords (by decide) hm
  rw [List.take_left' rfl] at hj
  have e : joinWords joinParts (leadingWords t.text ++ tokenWords ts) = _ :=
    joinWords_append (by decide) hj (tokenWords ts)
  exact e.symm.trans hm

/-- The phrase of a join is read again from its title. -/
theorem lexed_joinTitle (h : Lexed (t :: ts)) (hk : t.kind = .join) :
    Lexed [joinTitle t.keyword] ∧ (joinTitle t.keyword).keyword = t.keyword := by
  have hw := h.isWord_of_kind (by rw [hk]; rfl)
  obtain ⟨n, hm, hp⟩ := (munch_word_iff hw).1 (munch_of_lexed h)
  obtain ⟨-, -, -, hne⟩ := leadingWords_of_munch_word hw hm hp (Text.stops_nil _)
  have hwords : ∀ v ∈ (leadingWords t.text).map Text.upper, v ≠ [] ∧
      ∀ c ∈ v, Text.isNameChar c = true := by
    intro v hv
    obtain ⟨w, hw, rfl⟩ := List.mem_map.1 hv
    obtain ⟨h₁, h₂⟩ := upper_word (mem_leadingWords w hw)
    refine ⟨fun e ↦ hne w hw ?_, h₁⟩
    rw [← h₂, e]
    rfl
  have hlower : ((leadingWords t.text).map Text.upper).map Text.lower = leadingWords t.text := by
    rw [List.map_map]
    refine (List.map_congr_left fun w hw ↦ ?_).trans (List.map_id _)
    exact (upper_word (mem_leadingWords w hw)).2
  have htext : (joinTitle t.keyword).text =
      Text.join [' '] ((leadingWords t.text).map Text.upper) := by
    rw [joinTitle, h.keyword_eq hw, upper_join]
  obtain ⟨hlead, hpast⟩ := words_of_join (by simpa using leadingWords_ne_nil t.text) hwords
  rw [hlower, ← htext] at hlead
  rw [List.length_map, ← htext] at hpast
  have hlen : (leadingWords t.text).length - 1 + 1 = (leadingWords t.text).length :=
    Nat.sub_add_cancel (List.length_pos_iff.2 (leadingWords_ne_nil _))
  have hword : (joinTitle t.keyword).text.head?.any startsWord = true := by
    have hstart : ∀ w ∈ continuations, (Text.upper w).head?.any startsWord = true := by decide
    obtain ⟨-, -, hc⟩ := take_joinWords (by decide) (joinWords_of_lexed h hk)
    obtain ⟨w, ws, e⟩ := List.exists_cons_of_ne_nil (leadingWords_ne_nil t.text)
    rw [List.take_length] at hc
    rw [e] at hc hwords htext
    rw [htext, List.map_cons, head?_join (hwords _ (by simp)).1]
    exact hstart w (hc w List.mem_cons_self)
  have hlexed : Lexed [joinTitle t.keyword] := by
    refine lexed_singleton.2 ((munch_word_iff hword).2 ⟨_, ?_, by rwa [List.append_nil]⟩)
    rw [List.append_nil, hlead, hlen]
    exact classify_join (joinWords_of_lexed h hk)
  refine ⟨hlexed, ?_⟩
  rw [hlexed.keyword_eq hword, hlead, h.keyword_eq hw]

end QueryTemplate
