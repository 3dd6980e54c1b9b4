import QueryTemplate.Proofs.Token.Alone
import QueryTemplate.Proofs.Token.Quoted
namespace QueryTemplate

open Token Grammar Recognizer

namespace Text

/-- A text with a backslash before every `q`. -/
def guarded (q : Char) (s : Text) : Text := s.flatMap fun c ↦ if c = q then ['\\', c] else [c]

variable {q c : Char} {s : Text}

@[simp] theorem guarded_nil (q : Char) : guarded q [] = [] := rfl

theorem guarded_cons_self (q : Char) (s : Text) :
    guarded q (q :: s) = '\\' :: q :: guarded q s := by simp [guarded]

theorem guarded_cons_of_ne (h : c ≠ q) (s : Text) : guarded q (c :: s) = c :: guarded q s := by
  simp [guarded, h]

theorem escapeName_of_plain (q : Char) (h : isPlainName s = true) : escapeName q s = s :=
  if_pos h

theorem escapeName_of_not_plain (q : Char) (h : isPlainName s = false) :
    escapeName q s = q :: (guarded q s ++ [q]) := if_neg (by simp [h])

/-- A plain name starts with a letter and has nothing but name characters. -/
theorem plainName_chars (h : isPlainName s = true) :
    s.head?.any startsWord = true ∧ ∀ c ∈ s, isNameChar c = true := by
  match s, h with
  | c :: d :: s, h =>
    simp only [isPlainName, Bool.and_eq_true] at h
    refine ⟨by simp [startsWord, h.1], fun x hx ↦ ?_⟩
    rcases List.mem_cons.1 hx with rfl | hx
    · simp [isNameChar, Char.isAlphanum, h.1]
    · exact List.all_eq_true.1 h.2 x hx

section Guarded

theorem unescaped_guarded_cons (hc : c ≠ '\\') (q : Char) (s : Text) :
    unescaped (guarded q (c :: s)) = (unescaped (guarded q s)).map (c :: ·) := by
  by_cases h : c = q
  · subst h
    rw [guarded_cons_self, unescaped, if_pos rfl]
  · rw [guarded_cons_of_ne h, unescaped_cons hc]

/-- Reading what was put between quotes never gives more characters than there were. -/
theorem length_unescaped_guarded (hq : q ≠ '\\') {s m : Text}
    (h : unescaped (guarded q s) = some m) : m.length ≤ s.length := by
  induction s using unescaped.induct generalizing m with
  | case1 =>
    obtain rfl := Option.some.inj h
    exact Nat.le_refl _
  | case2 =>
    rw [guarded_cons_of_ne hq.symm] at h
    cases h
  | case3 c hc =>
    rw [unescaped_guarded_cons hc] at h
    obtain rfl := Option.some.inj h
    exact Nat.le_refl _
  | case4 d s ih =>
    rw [guarded_cons_of_ne hq.symm] at h
    by_cases hd : d = q
    · subst hd
      rw [guarded_cons_self, unescaped, if_pos rfl, unescaped_cons hq, Option.map_map] at h
      obtain ⟨u, hu, rfl⟩ := Option.map_eq_some_iff.1 h
      have := ih hu
      simp only [Function.comp_apply, List.length_cons]
      omega
    · rw [guarded_cons_of_ne hd, unescaped, if_pos rfl] at h
      obtain ⟨u, hu, rfl⟩ := Option.map_eq_some_iff.1 h
      have := ih hu
      simp only [List.length_cons]
      omega
  | case5 c d s hc ih =>
    rw [unescaped_guarded_cons hc] at h
    obtain ⟨u, hu, rfl⟩ := Option.map_eq_some_iff.1 h
    exact Nat.succ_le_succ (ih hu)

theorem quotedRest_guarded_cons (hc : c ≠ '\\') (q : Char) (s : Text) :
    quotedRest q false (guarded q (c :: s) ++ [q]) = quotedRest q false (guarded q s ++ [q]) := by
  obtain ⟨d, u, hu⟩ : ∃ d u, guarded q s ++ [q] = d :: u := List.exists_cons_of_ne_nil (by simp)
  by_cases h : c = q
  · subst h
    rw [guarded_cons_self, List.cons_append, List.cons_append, quotedRest, if_pos rfl]
  · rw [guarded_cons_of_ne h, List.cons_append, hu, quotedRest, if_neg hc, if_neg h]

/-- A backslash in a name takes the quote or the character after it with it. -/
theorem not_reads_backslash (hq : q ≠ '\\')
    (hr : quotedRest q false (guarded q ('\\' :: s) ++ [q]) = some []) :
    unescaped (guarded q ('\\' :: s)) ≠ some ('\\' :: s) := by
  rw [guarded_cons_of_ne hq.symm] at hr ⊢
  cases s with
  | nil => exact nofun
  | cons d s =>
    by_cases hd : d = q
    · -- the quote that follows the two backslashes closes the text
      subst hd
      have hne : ∃ e u, guarded d s ++ [d] = e :: u := List.exists_cons_of_ne_nil (by simp)
      obtain ⟨e, u, hu⟩ := hne
      rw [guarded_cons_self] at hr
      simp only [List.cons_append, quotedRest, if_true, hu, if_neg hq, Bool.false_and,
        Bool.false_eq_true, if_false] at hr
      cases hr
    · rw [guarded_cons_of_ne hd, unescaped, if_pos rfl]
      intro h
      obtain ⟨u, hu, e⟩ := Option.map_eq_some_iff.1 h
      obtain ⟨-, rfl⟩ := List.cons.inj e
      have := length_unescaped_guarded hq hu
      rw [List.length_cons] at this
      omega

/-- Quotes hold a name, to be read back from them, if it has no backslash. -/
theorem guarded_reads_iff (hq : q ≠ '\\') : quotedRest q false (guarded q s ++ [q]) = some [] ∧
    unescaped (guarded q s) = some s ↔ '\\' ∉ s := by
  induction s with
  | nil => simp [quotedRest, unescaped]
  | cons c s ih =>
    by_cases hc : c = '\\'
    · subst hc
      refine ⟨fun h ↦ absurd h.2 (not_reads_backslash hq h.1), fun h ↦ absurd ?_ h⟩
      exact List.mem_cons_self
    · rw [quotedRest_guarded_cons hc, unescaped_guarded_cons hc, List.mem_cons, not_or, ← ih]
      simp [Ne.symm hc]

end Guarded
end Text

namespace Grammar

/-- The words that are no names without quotes. -/
def keywords : List Text :=
  ["select", "from", "prewhere", "where", "having", "limit", "format", "with", "join", "using",
    "on", "and", "or", "in"]

theorem phraseWords_singleton {ps : List (List Text)} (h : [] ∉ ps) (w : Text) :
    phraseWords ps [w] = if [w] ∈ ps then some 1 else none := by
  have hpre : ∀ p ∈ ps, p.isPrefixOf [w] = true ↔ p = [w] := by
    intro p hp
    rw [List.isPrefixOf_iff_prefix]
    refine ⟨fun e ↦ e.eq_of_length_le ?_, fun e ↦ e ▸ List.prefix_rfl⟩
    exact List.length_pos_iff.2 fun e ↦ h (e ▸ hp)
  split
  · rename_i hw
    have hsome : (ps.find? (·.isPrefixOf [w])).isSome = true :=
      List.find?_isSome.2 ⟨[w], hw, (hpre _ hw).2 rfl⟩
    obtain ⟨p, hp⟩ := Option.isSome_iff_exists.1 hsome
    have e := (hpre p (List.mem_of_find?_eq_some hp)).1
      (List.find?_some (p := fun q : List Text ↦ q.isPrefixOf [w]) hp)
    rw [phraseWords, hp, e]
    rfl
  · rename_i hw
    rw [phraseWords, List.find?_eq_none.2 fun p hp e ↦ hw ((hpre p hp).1 e ▸ hp)]
    rfl

theorem joinWords_singleton (parts : List (List (List Text))) (w : Text) :
    joinWords parts [w] = if w = "join".toList then some 1 else none := by
  induction parts with
  | nil => simp [joinWords]
  | cons ps parts ih =>
    have hn : optionalWords ps [w] = 0 := Nat.lt_one_iff.1 (optionalWords_lt (by simp))
    simp [joinWords, hn, ih]

theorem classify_singleton_iff {w : Text} :
    classify [w] = some (.identifier, 1) ↔ w ∉ keywords := by
  constructor
  · intro h hw
    have hall : ∀ w ∈ keywords, classify [w] ≠ some (.identifier, 1) := by decide
    exact hall w hw h
  · intro h
    have hp : ∀ ps : List (List Text), [] ∉ ps →
        (∀ p ∈ ps, p.length = 1 → ∀ v ∈ p, v ∈ keywords) → phraseWords ps [w] = none := by
      intro ps hne hps
      rw [phraseWords_singleton hne, if_neg]
      exact fun hw ↦ h (hps _ hw rfl w (List.mem_singleton.2 rfl))
    have hclause : clauseWords [w] = none := by
      rw [clauseWords, hp _ (by decide) (by decide)]
      refine if_neg fun e ↦ h ?_
      obtain rfl := Option.some.inj e.1
      decide
    have hjoin : joinWords joinParts [w] = none := by
      rw [joinWords_singleton, if_neg]
      rintro rfl
      exact h (by decide)
    simp only [classify, wordClasses, List.findSome?_cons, hclause, hjoin,
      hp [["using"], ["on"]] (by decide) (by decide), hp [["and"], ["or"]] (by decide) (by decide),
      hp membershipPhrases (by decide) (by decide), Option.map_none, Option.map_some]

/-- A keyword is a plain name in any case of its letters. -/
theorem isPlainName_of_keyword {n : Text} (h : Text.lower n ∈ keywords) :
    Text.isPlainName n = true := by
  have hall : ∀ w ∈ keywords, 2 ≤ w.length ∧ ∀ c ∈ w, c.isAlpha = true := by decide
  obtain ⟨hlen, halpha⟩ := hall _ h
  have hc : ∀ c ∈ n, c.isAlpha = true := by
    intro c hc
    rcases Text.toLower_cases c with ⟨hu, -⟩ | ⟨-, e⟩
    · exact Text.isAlpha_iff.2 (.inl hu)
    · exact e ▸ halpha _ (List.mem_map_of_mem hc)
  match n, hc, Text.length_lower n ▸ hlen with
  | c :: d :: s, hc, _ =>
    rw [Text.isPlainName, hc c List.mem_cons_self, Bool.true_and, List.all_eq_true]
    intro x hx
    simp [Text.isNameChar, Char.isAlphanum, hc x (List.mem_cons_of_mem _ hx)]

theorem kind_of_classify {ws : List Text} {k : Kind} {n : Nat} (h : classify ws = some (k, n)) :
    k ∈ wordClasses.map Prod.fst := by
  obtain ⟨⟨k', f⟩, hf, e⟩ := List.exists_of_findSome?_eq_some h
  obtain ⟨m, -, e⟩ := Option.map_eq_some_iff.1 e
  obtain ⟨rfl, -⟩ := Prod.mk.inj e
  exact List.mem_map_of_mem hf

end Grammar

namespace Token

/-- The name that a token stands for, if it does: what it is without quotes or what its quotes
hold. -/
def name? (t : Token) : Option Text :=
  match t.kind with
  | .identifier => some t.text
  | .string => Text.unescaped t.text.tail.dropLast
  | _ => none

end Token

section Names

variable {q : Char} {n : Text}

/-- A name without quotes is one word. -/
theorem Lexed.forall_isNameChar {t : Token} (h : Lexed [t]) (hk : t.kind = .identifier) : ∀ c ∈ t.text, Text.isNameChar c = true := by
  have hw : t.isWord = true := h.isWord_iff.2 (by rw [hk]; rfl)
  obtain ⟨k, u⟩ := t
  obtain rfl : k = .identifier := hk
  obtain ⟨m, hc, hp⟩ := (munch_word_iff hw).1 (lexed_singleton.1 h)
  obtain ⟨⟨k, f⟩, hf, e⟩ := List.exists_of_findSome?_eq_some hc
  obtain ⟨l, hl, e⟩ := Option.map_eq_some_iff.1 e
  obtain ⟨rfl, rfl⟩ := Prod.mk.inj e
  have hone : ∀ c ∈ wordClasses, c.1 = .identifier → c.2 = fun _ ↦ some 1 := by simp [wordClasses]
  have hf : f = fun _ ↦ some 1 := hone _ hf rfl
  rw [hf] at hl
  obtain rfl : m = 0 := (Nat.succ.inj (Option.some.inj hl)).symm
  have he : u.takeWhile Text.isNameChar ++ u.dropWhile Text.isNameChar = u := List.takeWhile_append_dropWhile
  rw [List.append_nil, show pastWord 0 u = u.dropWhile Text.isNameChar from rfl] at hp
  intro c hm
  rw [← he, hp, List.append_nil] at hm
  exact Text.mem_takeWhile hm

/-- A word is a name unless it is a keyword. -/
theorem lexed_identifier_iff (hs : n.head?.any startsWord = true) (hc : ∀ c ∈ n, Text.isNameChar c = true) :
    Lexed [⟨.identifier, n⟩] ↔ Text.lower n ∉ keywords := by
  have hwords : leadingWords (n ++ []) = [Text.lower n] := leadingWords_append_of_name hc (Text.stops_nil _)
  have hpast : pastWord 0 (n ++ []) = [] := Text.dropWhile_append_stops hc (Text.stops_nil _)
  rw [← classify_singleton_iff, lexed_singleton, munch_word_iff hs, hwords]
  constructor
  · rintro ⟨m, hk, -⟩
    have hne : Text.lower n ≠ [] := fun e ↦ by
      have := List.map_eq_nil_iff.1 e
      simp [this] at hs
    obtain ⟨-, hle, -⟩ := classify_bounds hne hk
    obtain rfl : m = 0 := by simpa using hle
    exact hk
  · exact fun h ↦ ⟨0, h, hpast⟩

/-- A plain name is one token, which is a name unless it is a keyword. -/
theorem plainName_token_iff (hn : Text.isPlainName n = true) :
    (∃ t, tokens? n = .ok [t] ∧ t.name? = some n) ↔ Text.lower n ∉ keywords := by
  obtain ⟨hstart, hchars⟩ := Text.plainName_chars hn
  rw [← lexed_identifier_iff hstart hchars]
  constructor
  · rintro ⟨⟨k, u⟩, ht, hname⟩
    obtain ⟨htext, hl⟩ := tokens?_eq_ok_iff.1 ht
    obtain rfl : u = n := by simpa using htext
    have hf : family k = .identifier := hl.isWord_iff.1 hstart
    have hkind : k = .identifier := by
      cases k <;> first | rfl | cases hname | cases hf
    rwa [hkind] at hl
  · exact fun h ↦ ⟨⟨.identifier, n⟩, tokens?_eq_ok_iff.2 ⟨by simp, h⟩, rfl⟩

theorem string_quote (hq : q = '`' ∨ q = '"') (s : Text) :
    string (q :: s) = quotedRest q false s := by
  rcases hq with rfl | rfl <;>
  · simp only [string, oneOf, quoted, Recognizer.seq, Recognizer.one, List.findSome?_cons,
      List.findSome?_nil, decide_true, if_true, Option.bind_some]
    cases quotedRest _ false s <;> rfl

/-- A quoted name is one token that holds the name, unless a backslash is in it. -/
theorem quotedName_token_iff (hq : q = '`' ∨ q = '"') (n : Text) :
    (∃ t, tokens? (q :: (Text.guarded q n ++ [q])) = .ok [t] ∧ t.name? = some n) ↔ '\\' ∉ n := by
  have hslash : q ≠ '\\' := by rcases hq with rfl | rfl <;> decide
  have hstring : string (q :: (Text.guarded q n ++ [q]) ++ []) = some [] ↔
      quotedRest q false (Text.guarded q n ++ [q]) = some [] := by
    rw [List.append_nil, string_quote hq]
  have hheld : (q :: (Text.guarded q n ++ [q])).tail.dropLast = Text.guarded q n :=
    List.dropLast_concat
  rw [← Text.guarded_reads_iff hslash]
  constructor
  · rintro ⟨⟨k, u⟩, ht, hname⟩
    obtain ⟨htext, hl⟩ := tokens?_eq_ok_iff.1 ht
    obtain rfl : u = _ := (List.append_nil u).symm.trans htext
    have hm := lexed_singleton.1 hl
    obtain ⟨c, hc, hfam⟩ := family_of_munch hm
    obtain rfl : q = c := Option.some.inj hc
    have hkind : k = .string := by
      rcases hq with rfl | rfl <;> cases k <;> first | rfl | cases hname | cases hfam
    subst hkind
    refine ⟨hstring.1 (munch_string_iff.1 hm), ?_⟩
    rw [← hheld]
    exact hname
  · rintro ⟨hr, hu⟩
    refine ⟨⟨.string, q :: (Text.guarded q n ++ [q])⟩, tokens?_eq_ok_iff.2 ⟨by simp, ?_⟩, ?_⟩
    · exact lexed_singleton.2 (munch_string_iff.2 (hstring.2 hr))
    · rw [name?, hheld, hu]

/-- An escaped name is one token that stands for the name, unless the name has a backslash or is a
keyword. -/
theorem escapeName_token_iff (hq : q = '`' ∨ q = '"') (n : Text) :
    (∃ t, tokens? (Text.escapeName q n) = .ok [t] ∧ t.name? = some n) ↔
      '\\' ∉ n ∧ Text.lower n ∉ keywords := by
  cases hn : Text.isPlainName n with
  | true =>
    have hslash : '\\' ∉ n := fun h ↦ by
      have := (Text.plainName_chars hn).2 _ h
      revert this
      decide
    rw [Text.escapeName_of_plain q hn, plainName_token_iff hn, and_iff_right hslash]
  | false =>
    have hkey : Text.lower n ∉ keywords := fun h ↦ by
      simp [isPlainName_of_keyword h] at hn
    rw [Text.escapeName_of_not_plain q hn, quotedName_token_iff hq, and_iff_left hkey]

theorem escapeName_token_backslash :
    (∃ t, tokens? (Text.escapeName '`' "my `db`") = .ok [t] ∧ t.name? = some "my `db`".toList) ∧
      ¬ ∃ t, tokens? (Text.escapeName '"' "a\\") = .ok [t] ∧ t.name? = some "a\\".toList :=
  ⟨(escapeName_token_iff (.inl rfl) _).2 (by decide),
    fun h ↦ absurd ((escapeName_token_iff (.inr rfl) _).1 h).1 (by decide)⟩

end Names
end QueryTemplate
