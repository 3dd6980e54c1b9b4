import QueryTemplate.Proofs.Query.Regular
namespace QueryTemplate

open Token Fragment Grammar

theorem isPoint_iff {t : Token} (h : Lexical t) (hp : Neat t) :
    isPoint t = true ↔ t.text.head? = some '.' := by
  have hop : ∀ w ∈ pairs ++ singles, w.head? = some '.' → w = ['.'] := by decide
  simp only [isPoint, Bool.and_eq_true, decide_eq_true_eq]
  constructor
  · rintro ⟨-, h⟩
    rw [h]
    rfl
  · intro hc
    have hs := h.startsKind '.' hc
    have hn := hp.2.2
    cases hk : t.kind with
    | number => exact absurd hc (hn hk).1
    | operator => exact ⟨rfl, hop _ (h.operator hk) hc⟩
    | blank | comment | aggregation | clause | join | joinConstraint | conjunction | membership | placeholder
      | string | identifier | opening | closing | punctuation =>
      rw [hk] at hs
      exact absurd hs (by decide)

theorem point_or_number_of_getLast? {t : Token} (h : Lexical t) (hm : t.kind ≠ .comment)
    (hb : t.kind ≠ .blank) (hc : t.text.getLast? = some '.') :
    isPoint t = true ∨ t.kind = .number := by
  have hop : ∀ w ∈ pairs ++ singles, w.getLast? = some '.' → w = ['.'] := by decide
  have hs := h.endsKind hb hm '.' hc
  cases hk : t.kind with
  | blank => exact absurd hk hb
  | comment => exact absurd hk hm
  | number => exact .inr rfl
  | operator => exact .inl (by simp [isPoint, hk, hop _ (h.operator hk) hc])
  | aggregation | clause | join | joinConstraint | conjunction | membership | placeholder
    | string | identifier | opening | closing | punctuation =>
    rw [hk] at hs
    exact absurd hs (by decide)

theorem isPoint_of_getLast? {t : Token} (h : Lexical t) (hp : Neat t) (hb : t.kind ≠ .blank)
    (hc : t.text.getLast? = some '.') : isPoint t = true :=
  (point_or_number_of_getLast? h hp.1 hb hc).resolve_right fun hk ↦ (hp.2.2 hk).2 hc

theorem kind_of_getLast?_opening {t : Token} (h : Lexical t) (hm : t.kind ≠ .comment)
    (hb : t.kind ≠ .blank) {c : Char} (hc : c = '(' ∨ c = '[') (hl : t.text.getLast? = some c) :
    t.kind = .opening := by
  have hs := h.endsKind hb hm c hl
  cases hk : t.kind with
  | opening => rfl
  | blank => exact absurd hk hb
  | comment => exact absurd hk hm
  | aggregation | clause | join | joinConstraint | conjunction | membership | placeholder | number
    | operator | string | identifier | closing | punctuation =>
    rw [hk] at hs
    rcases hc with rfl | rfl <;> exact absurd hs (by decide)

theorem getLast?_ne_bang {t : Token} (h : Lexical t) (hm : t.kind ≠ .comment) (hb : t.kind ≠ .blank)
    (hn : t.kind = .operator → t.text ≠ ['!']) : t.text.getLast? ≠ some '!' := by
  have hop : ∀ w ∈ pairs ++ singles, w.getLast? = some '!' → w = ['!'] := by decide
  intro hc
  have hs := h.endsKind hb hm '!' hc
  cases hk : t.kind with
  | blank => exact hb hk
  | comment => exact hm hk
  | operator => exact hn hk (hop _ (h.operator hk) hc)
  | aggregation | clause | join | joinConstraint | conjunction | membership | placeholder | number
    | opening | string | identifier | closing | punctuation =>
    rw [hk] at hs
    exact absurd hs (by decide)

theorem number_of_isDigit {k : Kind} {c : Char} (h : startsKind k c = true)
    (hc : c.isDigit = true) :
    k = .number := by
  have hop : ∀ w ∈ operators, ∀ c ∈ w.head?, c.isDigit = false := by decide
  cases k with
  | number => rfl
  | operator =>
    obtain ⟨w, hw, e⟩ := List.any_eq_true.1 h
    rw [hop w hw c (by simpa using e)] at hc
    cases hc
  | clause | join | joinConstraint | conjunction | membership | identifier =>
    have h : startsWord c = true := h
    rw [not_startsWord_of_isDigit hc] at h
    cases h
  | blank =>
    rcases isBlank_iff.1 h with rfl | rfl | rfl | rfl <;> cases hc
  | comment | aggregation | placeholder | string | opening | closing | punctuation =>
    simp only [startsKind, Bool.or_eq_true, decide_eq_true_eq, or_assoc] at h
    rcases h with rfl | rfl | rfl | rfl | rfl | rfl <;> cases hc

/-- What a token without a space before it starts with. -/
def attached (t : Token) : Prop :=
  t.kind = .closing ∨ t.text = [','] ∨ t.text = [';'] ∨ isPoint t = true ∨ t.kind = .opening

theorem delimited_of_attached {t : Token} (h : Lexical t) (ha : attached t) (ps : List Token) :
    Delimited (textOf (t :: ps)) ∧
      (isPoint t = false → Text.Stops isNumeric (textOf (t :: ps))) := by
  have key : ∀ w : Text, t.text = w → (∀ c ∈ w.head?, isDelimiter c = true) → w ≠ [] →
      ((∀ c ∈ w.head?, isNumeric c = false) ∨ isPoint t = true) →
      Delimited (textOf (t :: ps)) ∧
          (isPoint t = false → Text.Stops isNumeric (textOf (t :: ps))) := by
    intro w hw hd hne hn
    obtain ⟨c, u, rfl⟩ := List.exists_cons_of_ne_nil hne
    rw [textOf_cons, hw]
    refine ⟨fun d hd' ↦ hd d hd', fun hp ↦ ?_⟩
    rcases hn with hn | hn
    · exact fun d hd' ↦ hn d hd'
    · rw [hp] at hn
      cases hn
  rcases ha with ha | ha | ha | ha | ha
  · rcases h.closing ha with hw | hw
    · exact key _ hw (by decide) (by simp) (.inl (by decide))
    · exact key _ hw (by decide) (by simp) (.inl (by decide))
  · exact key _ ha (by decide) (by simp) (.inl (by decide))
  · exact key _ ha (by decide) (by simp) (.inl (by decide))
  · refine key ['.'] ?_ (by decide) (by simp) (.inr ha)
    simp only [isPoint, Bool.and_eq_true, decide_eq_true_eq] at ha
    exact ha.2
  · rcases h.opening ha with hw | hw
    · exact key _ hw (by decide) (by simp) (.inl (by decide))
    · exact key _ hw (by decide) (by simp) (.inl (by decide))

/-- Where no space goes, a text ends in what takes none or the token starts with a delimiter. -/
theorem needsSpace_cases {s : Text} {t : Token} (hs : needsSpace s t = false) :
    s = [] ∨ (∃ c, s.getLast? = some c ∧
      (Text.isSpace c = true ∨ c = '(' ∨ c = '[' ∨ c = '.' ∨ c = '!')) ∨
      t.kind = .closing ∨ t.text = [','] ∨ t.text = [';'] ∨ t.text.head? = some '.' ∨
          t.kind = .opening := by
  rw [needsSpace] at hs
  split at hs
  · exact .inl (List.getLast?_eq_none_iff.1 ‹_›)
  · rename_i c hc
    right
    split at hs
    · rename_i hcs
      simp only [Bool.or_eq_true, decide_eq_true_eq, or_assoc] at hcs
      exact .inl ⟨c, hc, hcs⟩
    · right
      split at hs
      · exact .inl ‹_›
      · split at hs
        · rename_i hcs
          simp only [Bool.and_eq_true, Bool.or_eq_true, decide_eq_true_eq] at hcs
          exact .inr (hcs.2.imp_right .inl)
        · split at hs
          · exact .inr (.inr (.inr (.inl ‹_›)))
          · split at hs
            · exact .inr (.inr (.inr (.inr ‹_›)))
            · cases hs

theorem needsSpace_eq_false {s : Text} {t : Token} (h : Lexical t) (hp : Neat t)
    (hs : needsSpace s t = false) (hsp : ∀ c ∈ s.getLast?, Text.isSpace c = false) :
    s = [] ∨ (∃ c, s.getLast? = some c ∧ (c = '(' ∨ c = '[' ∨ c = '.' ∨ c = '!')) ∨ attached t := by
  rcases needsSpace_cases hs with hs | ⟨c, hc, hcs⟩ | hs
  · exact .inl hs
  · refine .inr (.inl ⟨c, hc, hcs.resolve_left ?_⟩)
    simp [hsp c hc]
  · rw [attached, isPoint_iff h hp]
    exact .inr (.inr hs)

/-- Two tokens without a space between them are read apart. -/
theorem loose_of_needsSpace {q t : Token} {s : Text} (hq : Lexical q) (pq : Neat q)
    (bq : q.kind ≠ .blank) (ht : Lexical t) (pt : Neat t) (ha : Apart q t)
    (hs : s.getLast? = q.text.getLast?) (hn : needsSpace s t = false) (ps : List Token) :
    Loose q (t :: ps) := by
  have hsol := (hq.solid bq pq.1).last
  rcases needsSpace_eq_false ht pt hn (by rwa [hs]) with rfl | ⟨c, hc, hcs⟩ | hat
  · exact absurd (List.getLast?_eq_none_iff.1 hs.symm) hq.text_ne_nil
  · rw [hs] at hc
    rcases hcs with hcs | hcs | rfl | rfl
    · exact .inl (kind_of_getLast?_opening hq pq.1 bq (.inl hcs) hc)
    · exact .inl (kind_of_getLast?_opening hq pq.1 bq (.inr hcs) hc)
    · have hpt := isPoint_of_getLast? hq pq bq hc
      have hpt' := hpt
      simp only [isPoint, Bool.and_eq_true, decide_eq_true_eq] at hpt'
      refine .inr (.inl ⟨hpt'.1, hpt'.2, fun d hd ↦ Bool.eq_false_iff.2 fun hdig ↦ ?_⟩)
      rw [textOf_cons, List.head?_append, List.head?_eq_some_head ht.text_ne_nil] at hd
      have hd : t.text.head? = some d := by rwa [List.head?_eq_some_head ht.text_ne_nil]
      rw [ha.2 (number_of_isDigit (ht.startsKind d hd) hdig)] at hpt
      cases hpt
    · exact absurd hc (getLast?_ne_bang hq pq.1 bq pq.2.1)
  · obtain ⟨h₁, h₂⟩ := delimited_of_attached ht hat ps
    exact .inr (.inr ⟨h₁, fun hk ↦ h₂ (ha.1 hk)⟩)

namespace Fragment

def isWordChar (c : Char) : Bool := Text.isAlphanumeric c || c = '_'

theorem trailingWord_append {s u : Text}
    (h : (∃ c ∈ u, isWordChar c = false) ∨ ∀ c ∈ s.getLast?, isWordChar c = false) :
    trailingWord (s ++ u) = trailingWord u := by
  have e : (s ++ u).reverse.takeWhile isWordChar = u.reverse.takeWhile isWordChar := by
    rw [List.reverse_append]
    rcases h with ⟨c, hm, hc⟩ | h
    · exact takeWhile_append_of_not (List.mem_reverse.2 hm) hc _
    · have hs : s.reverse.takeWhile isWordChar = [] :=
        Text.takeWhile_of_stops fun c hc ↦ h c (by rwa [List.head?_reverse] at hc)
      rw [List.takeWhile_append, hs, List.append_nil]
      split
      · exact ((List.takeWhile_prefix _).eq_of_length ‹_›).symm
      · rfl
  have hd : ∀ s, trailingWord s = Text.lower (s.reverse.takeWhile isWordChar).reverse := fun _ ↦ rfl
  rw [hd, hd, e]

theorem isWordChar_of_isSpace {c : Char} (h : Text.isSpace c = true) : isWordChar c = false := by
  have hw : ∀ n ∈ [9, 10, 11, 12, 13, 0x20, 0x85, 0xA0, 0x1680, 0x2000, 0x2001, 0x2002, 0x2003,
    0x2004, 0x2005,
      0x2006, 0x2007, 0x2008, 0x2009, 0x200A, 0x2028, 0x2029, 0x202F, 0x205F, 0x3000],
      isWordChar (Char.ofNat n) = false := by decide +kernel
  rw [← Char.ofNat_toNat c]
  apply hw
  simp only [Text.isSpace, Bool.or_eq_true, Bool.and_eq_true, decide_eq_true_eq] at h
  simp only [List.mem_cons, List.not_mem_nil, or_false]
  omega

/-- The word at the end of an expression is that of its last token. -/
theorem trailingWord_pushToken (f : Fragment) {t : Token} (ht : Lexical t) :
    trailingWord (f.pushToken t).text = trailingWord t.text := by
  rw [Fragment.pushToken]
  refine trailingWord_append ?_
  cases hn : needsSpace f.text t with
  | true =>
    refine .inr fun c hc ↦ ?_
    rw [if_pos rfl, List.getLast?_append] at hc
    obtain rfl := Option.some.inj hc
    rfl
  | false =>
    rw [if_neg nofun, List.append_nil]
    have hsign : ∀ w : Text, t.text = w → (∃ c ∈ w, isWordChar c = false) →
        ∃ c ∈ t.text, isWordChar c = false := fun w hw hc ↦ hw ▸ hc
    rcases needsSpace_cases hn with hs | ⟨c, hc, hcs⟩ | hk | hk | hk | hk | hk
    · rw [hs]
      exact .inr nofun
    · refine .inr fun d hd ↦ ?_
      obtain rfl := Option.some.inj (hc.symm.trans hd)
      rcases hcs with hcs | rfl | rfl | rfl | rfl
      · exact isWordChar_of_isSpace hcs
      all_goals rfl
    · rcases ht.closing hk with hw | hw
      · exact .inl (hsign _ hw ⟨_, List.mem_singleton_self _, rfl⟩)
      · exact .inl (hsign _ hw ⟨_, List.mem_singleton_self _, rfl⟩)
    · exact .inl (hsign _ hk ⟨_, List.mem_singleton_self _, rfl⟩)
    · exact .inl (hsign _ hk ⟨_, List.mem_singleton_self _, rfl⟩)
    · obtain ⟨u, hu⟩ := List.head?_eq_some_iff.1 hk
      exact .inl ⟨'.', by simp [hu], rfl⟩
    · rcases ht.opening hk with hw | hw
      · exact .inl (hsign _ hw ⟨_, List.mem_singleton_self _, rfl⟩)
      · exact .inl (hsign _ hw ⟨_, List.mem_singleton_self _, rfl⟩)

/-- The token `p` is the last one of an expression; there is none if `p` is none. -/
structure EndsIn (f : Fragment) (p : Option Token) : Prop where
  empty : p = none → f.text = []
  last : ∀ q ∈ p, f.text.getLast? = q.text.getLast? ∧ trailingWord f.text = trailingWord q.text
  token : ∀ q ∈ p, Lexical q ∧ Neat q ∧ q.kind ≠ .blank
  solid : Solid f.text

theorem endsIn_empty : EndsIn {} none := ⟨fun _ ↦ rfl, nofun, nofun, nofun, nofun⟩

variable {f : Fragment} {p : Option Token} {t : Token}

theorem EndsIn.pushToken (h : f.EndsIn p) (ht : Lexical t) (pt : Neat t) (hb : t.kind ≠ .blank) :
    (f.pushToken t).EndsIn (some t) where
  empty := nofun
  last q hq := by
    obtain rfl := Option.some.inj hq
    refine ⟨?_, trailingWord_pushToken f ht⟩
    rw [Fragment.pushToken, List.getLast?_append, List.getLast?_eq_some_getLast ht.text_ne_nil,
      Option.some_or]
  token q hq := by
    obtain rfl := Option.some.inj hq
    exact ⟨ht, pt, hb⟩
  solid := by
    have hs := ht.solid hb pt.1
    cases hf : f.text with
    | nil => simpa [Fragment.pushToken, hf, needsSpace] using hs
    | cons c u =>
      refine ⟨fun d hd ↦ h.solid.head d ?_, fun d hd ↦ hs.last d ?_⟩
      · rw [hf]
        simpa [Fragment.pushToken, hf] using hd
      · rw [Fragment.pushToken, List.getLast?_append, List.getLast?_eq_some_getLast ht.text_ne_nil,
          Option.some_or] at hd
        rwa [List.getLast?_eq_some_getLast ht.text_ne_nil]

theorem EndsIn.text_ne_nil (h : f.EndsIn (some t)) : f.text ≠ [] := by
  intro e
  have hl := (h.last t rfl).1
  rw [e, eq_comm, List.getLast?_nil, List.getLast?_eq_none_iff] at hl
  exact (h.token t rfl).1.text_ne_nil hl

/-- What parentheses enclose comes after an expression. -/
theorem EndsIn.pushText (h : f.EndsIn (some t)) {e : Token} (he : Lexical e)
    (hc : e.isCloseParen = true) (s : Text) : (f.pushText (s ++ [')'])).EndsIn (some e) := by
  simp only [isCloseParen, Bool.and_eq_true, decide_eq_true_eq] at hc
  have hl : (f.pushText (s ++ [')'])).text = f.text ++ s ++ [')'] := (List.append_assoc _ _ _).symm
  refine ⟨(fun h ↦ by cases h), fun q hq ↦ ?_, fun q hq ↦ ?_, ?_, ?_⟩
  · obtain rfl := Option.some.inj hq
    rw [hl, hc.2, List.getLast?_append]
    exact ⟨rfl, trailingWord_append (.inl ⟨')', List.mem_singleton_self _, rfl⟩)⟩
  · obtain rfl := Option.some.inj hq
    exact ⟨he, by simp [Neat, hc.1], by simp [hc.1]⟩
  · intro d hd
    obtain ⟨c, u, hf⟩ := List.exists_cons_of_ne_nil h.text_ne_nil
    rw [hl, hf] at hd
    exact h.solid.head d (by rw [hf]; exact hd)
  · intro d hd
    rw [hl, List.getLast?_append] at hd
    obtain rfl := Option.some.inj hd
    rfl

end Fragment
end QueryTemplate
