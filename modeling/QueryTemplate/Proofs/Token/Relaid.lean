import QueryTemplate.Proofs.Token.Splice
import QueryTemplate.Proofs.Token.Depth
namespace QueryTemplate

open Token Grammar

/-- The words that a phrase just before some tokens could take. -/
def ahead (ts : List Token) : List Text := phraseRest (tokenWords ts)

theorem ahead_blank {t : Token} (h : t.isBlank = true) (ts : List Token) :
    ahead (t :: ts) = ahead ts := by
  rw [ahead, tokenWords_blank h, ahead]

theorem ahead_symbol {t : Token} (hb : t.isBlank = false) (hw : t.isWord = false)
    (ts : List Token) :
    ahead (t :: ts) = [] := by
  rw [ahead, tokenWords_symbol hb hw]
  rfl

theorem ahead_cons {t : Token} {ts us : List Token} (h : ahead ts = ahead us) :
    ahead (t :: ts) = ahead (t :: us) := by
  simp only [ahead, tokenWords]
  split
  · exact h
  · split
    · exact phraseRest_append h
    · rfl

theorem Lexed.ahead_head {t : Token} {ts ws : List Token} {w : Text} {vs : List Text}
    (h : Lexed (t :: ts)) (ht : t.isWord = true) (hl : leadingWords t.text = w :: vs)
    (hw : w ∉ continuations) : ahead (t :: ws) = [] := by
  have hb : t.isBlank = false := by
    rw [Bool.eq_false_iff]
    intro hb
    have hf := h.isWord_iff.1 ht
    rw [Token.isBlank, decide_eq_true_eq] at hb
    rw [hb] at hf
    cases hf
  rw [ahead, tokenWords_word hb ht, hl, List.cons_append, phraseRest,
    List.takeWhile_cons_of_neg (by simpa using hw)]

/-- A clause keyword continues no phrase. -/
theorem Lexed.ahead_clause {t : Token} {ts us : List Token} (h : Lexed (t :: ts))
    (hk : t.kind = .clause) :
    ahead (t :: us) = [] := by
  obtain ⟨w, ws, hl, hw, -⟩ := h.clause_head hk
  exact h.ahead_head (h.isWord_of_kind (by rw [hk]; rfl)) hl hw

theorem Lexed.ahead_conjunction {t : Token} {ts us : List Token} (h : Lexed (t :: ts))
    (hk : t.kind = .conjunction) : ahead (t :: us) = [] := by
  have hc : ∀ p ∈ [["and".toList], ["or".toList]], ∃ w ∈ p.head?, w ∉ continuations := by decide
  obtain ⟨w, hw, hn⟩ := hc _ (h.conjunction_words hk)
  obtain ⟨ws, hws⟩ := List.head?_eq_some_iff.1 hw
  exact h.ahead_head (h.isWord_of_kind (by rw [hk]; rfl)) hws hn

/-- A token can stand just before some others. -/
def Loose (t : Token) (ps : List Token) : Prop :=
  t.kind = .opening ∨ (t.kind = .operator ∧ t.text = ['.'] ∧ Text.Stops Char.isDigit (textOf ps)) ∨
    (Delimited (textOf ps) ∧ (t.kind = .number → Text.Stops isNumeric (textOf ps)))

/-- A keyword that can be written in another way: of a clause or of a join. -/
def Token.isTitle (t : Token) : Bool :=
  t.kind = .clause || t.kind = .join || t.kind = .joinConstraint

theorem Token.family_of_isTitle {t : Token} (h : t.isTitle = true) :
    family t.kind = .identifier := by
  simp only [Token.isTitle, Bool.or_eq_true, decide_eq_true_eq] at h
  rcases h with (h | h) | h <;> rw [h] <;> rfl

theorem Token.kind_of_isTitle {t : Token} (h : t.isTitle = true) :
    t.kind ≠ .opening ∧ t.kind ≠ .closing := by
  simp only [Token.isTitle, Bool.or_eq_true, decide_eq_true_eq] at h
  rcases h with (h | h) | h <;> simp [h]

theorem Token.isBlank_of_isTitle {t : Token} (h : t.isTitle = true) : t.isBlank = false := by
  simp only [Token.isTitle, Bool.or_eq_true, decide_eq_true_eq] at h
  rcases h with (h | h) | h <;> simp [Token.isBlank, h]

theorem Token.isTitle_of_clause {t : Token} (h : t.kind = .clause) : t.isTitle = true := by simp [Token.isTitle, h]

/-- The same tokens, up to the tokens `z`, but for what a printer changes: blanks, the writing of
keywords, and commas that separate nothing. Parentheses can also stay with all that they enclose. -/
inductive Relaid (z : List Token) : List Token → List Token → Prop
  | nil : Relaid z z []
  | skip {t ts ps} (ht : t.isBlank = true) (h : Relaid z ts ps) : Relaid z (t :: ts) ps
  | pad {g ts ps} (hg : g ≠ []) (hb : ∀ c ∈ g, Text.isBlank c = true)
    (hp : ∀ t ∈ ps.head?, t.isBlank = false) (h : Relaid z ts ps) : Relaid z ts (⟨.blank, g⟩ :: ps)
  | keep {t ts ps} (hb : t.isBlank = false) (hc : t.kind ≠ .comment) (hl : Loose t ps)
    (ha : t.isWord = true → ahead ts = ahead ps) (h : Relaid z ts ps) : Relaid z (t :: ts) (t :: ps)
  | rewrite {t u ts ps} (ht : t.isTitle = true) (hu : u.kind = t.kind) (hw : u.keyword = t.keyword)
    (hl : Lexed [u]) (hd : Delimited (textOf ps))
    (ha : t.kind = .clause ∧ t.keyword ≠ "with".toList ∨ ahead ts = ahead ps)
    (h : Relaid z ts ps) : Relaid z (t :: ts) (u :: ps)
  | comma {t ts ps} (ht : t.isComma = true) (h : Relaid z ts ps) : Relaid z (t :: ts) ps
  | raw {b e ts ps} (he : e.isCloseParen = true) (hl : Delimited (textOf ps)) (h : Relaid z ts ps) :
    Relaid z (b ++ e :: ts) (b ++ e :: ps)

theorem isBlank_of_isOpenParen {o : Token} (ho : o.isOpenParen = true) :
    o.kind = .opening ∧ o.text = ['('] ∧ o.isBlank = false ∧ o.isWord = false := by
  simp only [isOpenParen, Bool.and_eq_true, decide_eq_true_eq] at ho
  exact ⟨ho.1, ho.2, by simp [Token.isBlank, ho.1], by rw [Token.isWord, ho.2]; rfl⟩

theorem isBlank_of_isCloseParen {e : Token} (he : e.isCloseParen = true) :
    e.kind = .closing ∧ e.text = [')'] ∧ e.isBlank = false ∧ e.isWord = false := by
  simp only [isCloseParen, Bool.and_eq_true, decide_eq_true_eq] at he
  exact ⟨he.1, he.2, by simp [Token.isBlank, he.1], by rw [Token.isWord, he.2]; rfl⟩

theorem leadingWords_of_keyword {t u : Token} {ts : List Token} (ht : Lexed (t :: ts))
    (hk : t.isTitle = true) (hu : Lexed [u]) (hku : u.kind = t.kind) (hw : u.keyword = t.keyword) :
    leadingWords u.text = leadingWords t.text := by
  have hf := Token.family_of_isTitle hk
  refine eq_of_join_eq (fun w ↦ space_not_mem_leadingWords) (fun w ↦ space_not_mem_leadingWords)
    (leadingWords_ne_nil _) (leadingWords_ne_nil _) ?_
  rw [← hu.keyword_eq (hu.isWord_of_kind (hku ▸ hf)), hw, ht.keyword_eq (ht.isWord_of_kind hf)]

/-- A keyword can be written in another way. -/
theorem Lexed.rewrite {t u : Token} {ts ps : List Token} (h : Lexed (t :: ts))
    (ht : t.isTitle = true) (hl : Lexed [u]) (hu : u.kind = t.kind) (hw : u.keyword = t.keyword)
    (hp : Lexed ps) (hd : Delimited (textOf ps))
    (ha : t.kind = .clause ∧ t.keyword ≠ "with".toList ∨ ahead ts = ahead ps) :
    Lexed (u :: ps) := by
  have hf := Token.family_of_isTitle ht
  have hwt := h.isWord_of_kind hf
  have hwu := hl.isWord_of_kind (hu ▸ hf)
  have hlead := leadingWords_of_keyword h ht hl hu hw
  have hs := stops_name_of_delimited hd
  refine lexed_cons.2 ⟨?_, hp⟩
  obtain ⟨n, hk, hpast⟩ := (munch_word_iff hwu).1 (munch_of_lexed hl)
  obtain ⟨-, hlen, -⟩ := leadingWords_of_munch_word hwu hk hpast (Text.stops_nil _)
  obtain ⟨h₁, -, h₂, -⟩ := leadingWords_of_munch_word hwu hk hpast hs
  have hc := (h.classify_word hwt).2
  refine (munch_word_iff hwu).2 ⟨n, ?_, h₂⟩
  rw [h₁, hlead, hu, ← hlen, hlead, ← hc]
  rcases ha with ⟨hk, ha⟩ | ha
  · refine classify_fixed ?_ _ _
    have hm := h.clause_words hk
    rcases List.mem_cons.1 hm with hm | hm
    · rw [h.keyword_eq hwt, hm] at ha
      exact absurd rfl ha
    · exact List.mem_cons_of_mem _ (List.mem_cons_of_mem _ hm)
  · refine classify_append_congr (leadingWords_ne_nil _) ?_
    rw [phraseRest_follow hp hs]
    exact ha.symm

theorem Loose.fits {t : Token} {ts ps : List Token} (hl : Loose t ps) (hb : t.isBlank = false)
    (hc : t.kind ≠ .comment) (ha : t.isWord = true → ahead ts = ahead ps) (h : Lexed (t :: ts)) :
    Fits t ts ps where
  word hw := by
    refine ⟨?_, .inr (ha hw)⟩
    have hf := h.isWord_iff.1 hw
    rcases hl with hl | ⟨hl, -⟩ | ⟨hl, -⟩
    · rw [hl] at hf
      cases hf
    · rw [hl] at hf
      cases hf
    · exact stops_name_of_delimited hl
  number hn := by
    rcases hl with hl | ⟨hl, -⟩ | ⟨-, hl⟩
    · rw [hl] at hn
      cases hn
    · rw [hl] at hn
      cases hn
    · exact .inr (hl hn)
  symbol _ _ := by
    rcases hl with hl | hl | ⟨hl, -⟩
    · exact .inl hl
    · exact .inr (.inl hl)
    · exact .inr (.inr (.inr ⟨hl, by simpa [Token.isBlank] using hb, hc⟩))

theorem Loose.ne_star {t : Token} {ts ps : List Token} (hl : Loose t ps) (h : Lexed (t :: ts))
    (ht : t.text = ['/']) : ∀ x, textOf ps ≠ '*' :: x := by
  intro x hx
  rcases hl with hl | ⟨-, hl, -⟩ | ⟨hl, -⟩
  · obtain ⟨k, u⟩ := t
    obtain rfl : k = .opening := hl
    rcases munch_opening_iff.1 (munch_of_lexed h) with rfl | rfl <;> cases ht
  · rw [ht] at hl
    cases hl
  · have := hl '*' (by rw [hx]; rfl)
    simp [isDelimiter, Text.isBlank] at this

theorem commentEnd_left {u x : Text} (h : commentEnd (u ++ x) = none) : commentEnd u = none := by
  cases hu : commentEnd u with
  | none => rfl
  | some r =>
    obtain ⟨p, e⟩ := splits_commentEnd.suffix hu
    subst e
    rw [List.append_assoc, commentEnd_congr hu] at h
    cases h

/-- No comment ends in tokens that are laid out anew if none ended in them. -/
theorem Relaid.commentEnd {z ts ps : List Token} (h : Relaid z ts ps) (ht : Lexed ts)
    (hc : Grammar.commentEnd (textOf ts) = none) : Grammar.commentEnd (textOf ps) = none := by
  have hdel : ∀ {r : Text}, Delimited r → r.head? ≠ some '/' := by
    intro r hd e
    have := hd '/' e
    simp [isDelimiter, Text.isBlank] at this
  induction h with
  | nil => rfl
  | skip _ _ ih => exact ih ht.tail (commentEnd_of_append hc)
  | @pad g ts ps hg hb hp _ ih =>
    have hn : Grammar.commentEnd g = none := by
      clear hg
      induction g with
      | nil => rfl
      | cons c g ihg =>
        rw [commentEnd_cons]
        · exact ihg fun d hd ↦ hb d (List.mem_cons_of_mem _ hd)
        · intro y hy
          have := hb c List.mem_cons_self
          rw [hy] at this
          cases this
    refine commentEnd_append hn (ih ht hc) fun _ e ↦ ?_
    have := hb '*' (List.mem_of_getLast? e)
    cases this
  | @keep t ts ps hb hc' hl ha _ ih =>
    refine commentEnd_append (commentEnd_left hc)
      (ih ht.tail (commentEnd_of_append hc)) fun e hlast ↦ ?_
    rcases hl with hl | ⟨-, hl, -⟩ | ⟨hl, -⟩
    · have hm := munch_of_lexed ht
      rw [hl, munch_opening_iff] at hm
      rcases hm with hm | hm <;> rw [hm] at hlast <;> cases hlast
    · rw [hl] at hlast
      cases hlast
    · exact hdel hl e
  | @rewrite t u ts ps htk huk hw hl hd ha _ ih =>
    have hword := hl.word_chars (hl.isWord_of_kind (huk ▸ Token.family_of_isTitle htk))
    have hstar : '*' ∉ u.text := fun hm ↦ by rcases hword _ hm with h | h <;> cases h
    have hn : ∀ x : Text, '*' ∉ x → Grammar.commentEnd x = none := by
      intro x hx
      induction x with
      | nil => rfl
      | cons c x ihx =>
        rw [commentEnd_cons]
        · exact ihx fun h ↦ hx (List.mem_cons_of_mem _ h)
        · rintro y rfl
          exact absurd List.mem_cons_self hx
    refine commentEnd_append (hn _ hstar) (ih ht.tail (commentEnd_of_append hc)) fun _ e ↦ ?_
    exact hstar (List.mem_of_getLast? e)
  | comma _ _ ih => exact ih ht.tail (commentEnd_of_append hc)
  | @raw b e ts ps he hl _ ih =>
    obtain ⟨-, het, -⟩ := isBlank_of_isCloseParen he
    have htl : Lexed ts := (Lexed.suffix ht).tail
    rw [textOf_append, textOf_cons] at hc ⊢
    rw [← List.append_assoc] at hc ⊢
    refine commentEnd_append_none (fun hx ↦ ih htl hx) (fun e ↦ absurd e (hdel hl)) hc

/-- No other kinds of tokens come in than blanks. -/
theorem Relaid.kinds {P : Kind → Prop} {z ts ps : List Token} (h : Relaid z ts ps) (hb : P .blank)
    (ht : ∀ t ∈ ts, P t.kind) : ∀ t ∈ ps, P t.kind := by
  induction h with
  | nil => simp
  | skip _ _ ih => exact ih fun t h ↦ ht t (List.mem_cons_of_mem _ h)
  | pad _ _ _ _ ih => exact List.forall_mem_cons.2 ⟨hb, ih ht⟩
  | keep _ _ _ _ _ ih =>
    obtain ⟨ht, hts⟩ := List.forall_mem_cons.1 ht
    exact List.forall_mem_cons.2 ⟨ht, ih hts⟩
  | rewrite _ hu _ _ _ _ _ ih =>
    obtain ⟨ht, hts⟩ := List.forall_mem_cons.1 ht
    exact List.forall_mem_cons.2 ⟨hu ▸ ht, ih hts⟩
  | comma _ _ ih => exact ih fun t h ↦ ht t (List.mem_cons_of_mem _ h)
  | raw _ _ _ ih =>
    simp only [List.forall_mem_append, List.forall_mem_cons] at ht ⊢
    exact ⟨ht.1, ht.2.1, ih ht.2.2⟩

theorem Relaid.comment {z ts ps : List Token} (h : Relaid z ts ps)
    (hc : ∀ t ∈ ts, t.kind ≠ .comment) :
    ∀ t ∈ ps, t.kind ≠ .comment :=
  h.kinds (P := (· ≠ .comment)) (by decide) hc

/-- Tokens that are laid out anew are read again. -/
theorem Relaid.lexed {z ts ps : List Token} (h : Relaid z ts ps) (ht : Lexed ts) : Lexed ps := by
  induction h with
  | nil => exact scan_nil
  | skip _ _ ih => exact ih ht.tail
  | pad hg hb hp _ ih => exact lexed_cons.2 ⟨munch_blank_iff.2 ⟨hg, hb, (ih ht).stops_blank hp⟩,
    ih ht⟩
  | keep hb hc hl ha _ ih =>
    have hp := ih ht.tail
    exact ht.exchange hp (hl.fits hb hc ha ht) ⟨fun e x hx ↦ absurd hx (hl.ne_star ht e x),
      hp.slashFree⟩
  | rewrite htk huk hw hl hd ha _ ih => exact ht.rewrite htk hl huk hw (ih ht.tail) hd ha
  | comma _ _ ih => exact ih ht.tail
  | @raw b e ts ps he hl h ih =>
    have hs := Lexed.suffix ht
    have hp := ih hs.tail
    obtain ⟨hk, het, hb, hw⟩ := isBlank_of_isCloseParen he
    have hep : Lexed (e :: ps) := by
      refine lexed_cons.2 ⟨?_, hp⟩
      obtain ⟨k, u⟩ := e
      obtain rfl : k = .closing := hk
      exact munch_closing_iff.2 (munch_closing_iff.1 (munch_of_lexed hs))
    have hstart : SameStart (e :: ts) (e :: ps) := by
      refine ⟨by simp [het], ?_, ?_⟩
      · rw [tokenWords_symbol hb hw, tokenWords_symbol hb hw]
      · rw [textOf_cons, textOf_cons, het]
        rfl
    have hce := h.commentEnd hs.tail
    refine (ht.append_exchange hep hstart (ht.slashFree.append hep.slashFree ?_ ?_ ?_)).1
    · simp [het]
    · intro hn
      rw [textOf_cons] at hn ⊢
      refine commentEnd_append (by rw [het]; rfl) (hce (commentEnd_of_append hn)) fun _ e ↦ ?_
      rw [het] at e
      cases e
    · intro hn
      rw [textOf_cons, het] at hn ⊢
      exact hce hn

theorem Relaid.depthRun {z ts ps : List Token} (h : Relaid z ts ps) (d : Nat) :
    QueryTemplate.depthRun d ts = (QueryTemplate.depthRun d ps).bind fun e ↦
      QueryTemplate.depthRun e z := by
  have hsame : ∀ {t : Token} {d : Nat} (ts : List Token), t.kind ≠ .opening → t.kind ≠ .closing →
      QueryTemplate.depthRun d (t :: ts) = QueryTemplate.depthRun d ts := by
    intro t d ts ho hc
    simp [QueryTemplate.depthRun, isOpenParen, isCloseParen, ho, hc]
  induction h generalizing d with
  | nil => rfl
  | @skip t _ _ ht _ ih =>
    have hk : t.kind = .blank := by simpa [Token.isBlank] using ht
    rw [hsame _ (by simp [hk]) (by simp [hk]), ih]
  | pad _ _ _ _ ih => rw [hsame _ (by simp) (by simp), ih]
  | @keep t ts ps _ _ _ _ _ ih =>
    simp only [QueryTemplate.depthRun]
    split
    · exact ih _
    · split
      · cases d with
        | zero => rfl
        | succ d => exact ih d
      · exact ih d
  | rewrite ht hu _ _ _ _ _ ih =>
    obtain ⟨ho, hc⟩ := Token.kind_of_isTitle ht
    rw [hsame _ ho hc, hsame _ (hu ▸ ho) (hu ▸ hc), ih]
  | comma ht _ ih =>
    simp only [isComma, Bool.and_eq_true, decide_eq_true_eq] at ht
    rw [hsame _ (by simp [ht.1]) (by simp [ht.1]), ih]
  | @raw b e ts ps he _ _ ih =>
    rw [depthRun_append, depthRun_append]
    cases QueryTemplate.depthRun d b with
    | none => rfl
    | some d =>
      simp only [Option.bind_some, QueryTemplate.depthRun, isOpenParen_of_isCloseParen he, he]
      cases d with
      | zero => rfl
      | succ d => exact ih d

theorem Relaid.balanced {ts ps : List Token} (h : Relaid [] ts ps) (hb : Balanced ts) :
    Balanced ps := by
  have hd := h.depthRun 0
  rw [hb] at hd
  cases e : QueryTemplate.depthRun 0 ps with
  | none =>
    rw [e] at hd
    cases hd
  | some n =>
    rw [e] at hd
    exact e.trans hd.symm

theorem Relaid.covered {z ts ps : List Token} (h : Relaid z ts ps) {p : Token → Bool}
    (hp : ∀ t, t.isBlank = true → p t = false)
    (hw : ∀ t u : Token, u.kind = t.kind → u.keyword = t.keyword → p u = p t) (d : Nat)
    (hc : Covered p d ts) : Covered p d ps := by
  have hsame : ∀ {t : Token} {d : Nat}, t.kind ≠ .opening → t.kind ≠ .closing →
      standing d t = d ∧ after (standing d t) t = d := by
    intro t d ho hc
    simp [standing, after, isOpenParen, isCloseParen, ho, hc]
  induction h generalizing d with
  | nil => exact covered_nil
  | @skip t _ _ ht _ ih =>
    have hk : t.kind = .blank := by simpa [Token.isBlank] using ht
    rw [covered_cons, (hsame (by simp [hk]) (by simp [hk])).2] at hc
    exact ih d hc.2
  | pad _ _ _ _ ih => exact covered_cons.2 ⟨fun _ ↦ hp _ rfl, ih d hc⟩
  | keep _ _ _ _ _ ih =>
    obtain ⟨h₁, h₂⟩ := covered_cons.1 hc
    exact covered_cons.2 ⟨h₁, ih _ h₂⟩
  | @rewrite t u ts ps ht hu hk _ _ _ _ ih =>
    obtain ⟨ho, hcl⟩ := Token.kind_of_isTitle ht
    have ht' := hsame (t := t) (d := d) ho hcl
    have hu' := hsame (t := u) (d := d) (hu ▸ ho) (hu ▸ hcl)
    rw [covered_cons, ht'.2, ht'.1] at hc
    rw [covered_cons, hu'.2, hu'.1, hw t u hu hk]
    exact ⟨hc.1, ih d hc.2⟩
  | comma ht _ ih =>
    simp only [isComma, Bool.and_eq_true, decide_eq_true_eq] at ht
    rw [covered_cons, (hsame (by simp [ht.1]) (by simp [ht.1])).2] at hc
    exact ih d hc.2
  | raw he _ _ ih =>
    obtain ⟨h₁, h₂⟩ := covered_append.1 hc
    obtain ⟨h₂, h₃⟩ := covered_cons.1 h₂
    exact covered_append.2 ⟨h₁, covered_cons.2 ⟨h₂, ih _ h₃⟩⟩

theorem Relaid.blanks {z gs ts ps : List Token} (hg : ∀ t ∈ gs, t.isBlank = true)
    (h : Relaid z ts ps) :
    Relaid z (gs ++ ts) ps := by
  induction gs with
  | nil => exact h
  | cons t gs ih => exact .skip (hg t List.mem_cons_self) (ih fun u hu ↦ hg u (List.mem_cons_of_mem _ hu))

theorem ahead_blanks {gs : List Token} (hg : ∀ t ∈ gs, t.isBlank = true) (ts : List Token) :
    ahead (gs ++ ts) = ahead ts := by
  induction gs with
  | nil => rfl
  | cons t gs ih =>
    rw [List.cons_append, ahead_blank (hg t List.mem_cons_self),
      ih fun u hu ↦ hg u (List.mem_cons_of_mem _ hu)]

/-- Tokens laid out anew that end a phrase, a name or a number before them. -/
structure Ending (z ts ps : List Token) : Prop where
  relaid : Relaid z ts ps
  sealed : Sealed (textOf ps)
  old : ahead ts = []
  new : ahead ps = []

theorem Ending.nil {z : List Token} (h : ahead z = []) : Ending z z [] :=
  ⟨.nil, sealed_nil, h, rfl⟩

theorem Ending.loose {z ts ps : List Token} (h : Ending z ts ps) (t : Token) : Loose t ps :=
  .inr (.inr ⟨h.sealed.1, fun _ ↦ h.sealed.stops_numeric⟩)

def comma : Token := ⟨.punctuation, [',']⟩

/-- Blank characters between cells. -/
def IsGap (gap : Token) : Prop :=
  gap.kind = .blank ∧ gap.text ≠ [] ∧ ∀ c ∈ gap.text, Text.isBlank c = true

theorem IsGap.isBlank {gap : Token} (h : IsGap gap) : gap.isBlank = true := by simp [Token.isBlank, h.1]

theorem Relaid.gap {z ts ps : List Token} {gap : Token} (hg : IsGap gap)
    (hp : ∀ t ∈ ps.head?, t.isBlank = false) (h : Relaid z ts ps) : Relaid z ts (gap :: ps) := by
  obtain ⟨k, g⟩ := gap
  obtain ⟨rfl, h₁, h₂⟩ := hg
  exact .pad h₁ h₂ hp h

theorem sealed_gap {gap : Token} (hg : IsGap gap) (ps : List Token) :
    Sealed (textOf (gap :: ps)) := by
  obtain ⟨-, hne, hb⟩ := hg
  obtain ⟨c, u, e⟩ := List.exists_cons_of_ne_nil hne
  rw [textOf_cons, e]
  exact sealed_blank (hb c (by simp [e])) _

theorem sealed_comma (ps : List Token) : Sealed (textOf (comma :: ps)) :=
  ⟨by simp [comma, Delimited, isDelimiter], by simp [comma]⟩

theorem eq_comma {t : Token} (h : t.isComma = true) : t = comma := by
  obtain ⟨k, u⟩ := t
  simp only [isComma, Bool.and_eq_true, decide_eq_true_eq] at h
  obtain ⟨rfl, rfl⟩ := h
  rfl

theorem ahead_comma (ts : List Token) : ahead (comma :: ts) = [] := ahead_symbol rfl rfl ts

end QueryTemplate
