import QueryTemplate.Proofs.Query.Spacing
import QueryTemplate.Proofs.Query.Reads
namespace QueryTemplate

open Token Fragment Grammar

/-- The tokens `its` say what the tokens `orig` say after the expression `f`, which ends in `p`;
they are spaced as in the expression `g` that both lead to. -/
structure Rewrites (c : Clause) (n : Bool) (f : Fragment) (p : Option Token) (orig its : List Token)
    (g : Fragment) : Prop where
  reads : ∀ {us xs h}, NoGroup us → Reads c n g us xs h → Reads c n f (orig ++ us) xs h
  rereads : ∀ {us xs h}, NoGroup us → Reads c n g us xs h → Reads c n f (its ++ us) xs h
  text : g.text = f.text ++ textOf its
  empty : textOf its = [] → its = []
  noGroup : ∀ {a b us}, NoGroup (orig ++ a) → NoGroup us → b = its ++ us → NoGroup b
  marker : f.text = [] → f.isBalanced = true → g.text ≠ [',']
  source : orig = [] → its = []
  blanks : its = [] → ∀ t ∈ orig, t.isBlank = true
  head : f.text = [] → ∀ t ∈ its.head?, t.isBlank = false
  same : f.text = [] → ∀ t ∈ orig.head?, t.isBlank = false → its.head? = some t
  ends : ∃ q, g.EndsIn q
  relaid : ∀ {z vs ps}, Ending z vs ps → Relaid z (orig ++ vs) (its ++ ps) ∧
    ahead (orig ++ vs) = ahead (its ++ ps) ∧ ∀ q ∈ p, Loose q (its ++ ps)

variable {c : Clause} {n : Bool} {f g : Fragment} {p : Option Token} {t : Token}
    {orig its : List Token}

theorem Rewrites.nil (h : f.EndsIn p) : Rewrites c n f p [] [] f where
  reads _ h := h
  rereads _ h := h
  text := by simp
  empty _ := rfl
  noGroup _ hu e := e ▸ hu
  marker hf _ e := by rw [hf] at e; cases e
  source _ := rfl
  blanks _ := nofun
  head _ := nofun
  same _ := nofun
  ends := ⟨p, h⟩
  relaid h := ⟨h.relaid, h.old.trans h.new.symm, fun q _ ↦ h.loose q⟩

theorem Rewrites.blank (h : Rewrites c n f p orig its g) (ht : t.isBlank = true) :
    Rewrites c n f p (t :: orig) its g where
  reads hu hr := .blank ht (h.reads hu hr)
  rereads := h.rereads
  text := h.text
  empty := h.empty
  noGroup ho := h.noGroup ((noGroup_blank ht _).1 ho)
  marker := h.marker
  source := nofun
  blanks hi := List.forall_mem_cons.2 ⟨ht, h.blanks hi⟩
  head := h.head
  same _ u hu hb := by
    obtain rfl := Option.some.inj hu
    rw [ht] at hb
    cases hb
  ends := h.ends
  relaid he := by
    obtain ⟨h₁, h₂, h₃⟩ := h.relaid he
    exact ⟨.skip ht h₁, (ahead_blank ht _).trans h₂, h₃⟩

theorem isComma_of_text (h : Lexical t) (hc : t.text = [',']) : t.isComma = true := by
  have hk : ∀ k : Kind, k ∈ [.clause, .join, .joinConstraint, .conjunction, .membership,
    .identifier, .string,
      .number, .operator, .opening, .closing, .aggregation, .placeholder, .comment, .blank] →
      Grammar.startsKind k ',' = false := by decide
  have hs := h.startsKind ',' (by rw [hc]; rfl)
  cases e : t.kind with
  | punctuation => simp [isComma, e, hc]
  | _ =>
    rw [e, hk _ (by simp)] at hs
    cases hs

/-- The space before a token. -/
def spacing (f : Fragment) (t : Token) : List Token :=
  if needsSpace f.text t then [Token.space] else []

theorem spacing_of_empty (h : f.text = []) (t : Token) : spacing f t = [] := by
  rw [spacing, h, if_neg (by simp [needsSpace])]

theorem text_pushToken (f : Fragment) (t : Token) :
    (f.pushToken t).text = f.text ++ textOf (spacing f t) ++ t.text := by
  rw [pushToken, spacing]
  split <;> rfl

theorem loose_space (q : Token) (ps : List Token) : Loose q (Token.space :: ps) := by
  have hs := sealed_blank (c := ' ') rfl (textOf ps)
  exact .inr (.inr ⟨hs.1, fun _ ↦ hs.stops_numeric⟩)

/-- A token is written after an expression with the space it needs. -/
theorem relaid_push {z ts ps : List Token} (hf : f.EndsIn p) (ht : Lexical t) (pt : Neat t)
    (hb : t.kind ≠ .blank) (ha : ∀ q ∈ p, Apart q t) (h : Relaid z ts ps) (hw : ahead ts = ahead ps)
    (hl : Loose t ps) : Relaid z (t :: ts) (spacing f t ++ t :: ps) ∧
      ahead (t :: ts) = ahead (spacing f t ++ t :: ps) ∧
          ∀ q ∈ p, Loose q (spacing f t ++ t :: ps) := by
  have hbf : t.isBlank = false := by simp [Token.isBlank, hb]
  have hk : Relaid z (t :: ts) (t :: ps) := .keep hbf pt.1 hl (fun _ ↦ hw) h
  have ht' : ahead (t :: ts) = ahead (t :: ps) := ahead_cons hw
  cases hn : needsSpace f.text t with
  | true =>
    rw [spacing, if_pos hn]
    refine ⟨.pad (by simp) (by simp [Text.isBlank]) (by simpa using hbf) hk, ?_,
      fun q _ ↦ loose_space q _⟩
    exact ht'.trans (ahead_blank (t := Token.space) rfl _).symm
  | false =>
    rw [spacing, if_neg (by simp [hn])]
    refine ⟨hk, ht', fun q hq ↦ ?_⟩
    obtain ⟨hq₁, hq₂, hq₃⟩ := hf.token q hq
    exact loose_of_needsSpace hq₁ hq₂ hq₃ ht pt (ha q hq) (hf.last q hq).1 hn ps

theorem noGroup_spacing (hb : t.kind ≠ .blank) (ts : List Token) :
    NoGroup (spacing f t ++ t :: ts) ↔ t.isOpenParen = false := by
  have hbf : t.isBlank = false := by simp [Token.isBlank, hb]
  rw [spacing]
  split
  · rw [List.singleton_append, noGroup_blank rfl, noGroup_cons hbf]
  · rw [List.nil_append, noGroup_cons hbf]

theorem reads_spacing {us xs} {h : Fragment} (hr : Reads c n f us xs h) :
    Reads c n f (spacing f t ++ us) xs h := by
  rw [spacing]
  split
  · exact .blank rfl hr
  · exact hr

/-- A token that is put into the expression. -/
theorem Rewrites.push (h : Rewrites c n (f.pushToken t) (some t) orig its g)
    (hr : ∀ {ts us xs k}, (ts = orig ∨ ts = its) → NoGroup us →
      Reads c n (f.pushToken t) (ts ++ us) xs k →
      Reads c n f (t :: (ts ++ us)) xs k)
    (hf : f.EndsIn p) (ht : Lexical t) (pt : Steady t) (hb : t.kind ≠ .blank)
    (ha : ∀ q ∈ p, Apart q t)
    (hc : t.isComma = true → f.isBalanced = false) :
    Rewrites c n f p (t :: orig) (spacing f t ++ t :: its) g where
  reads hu hx := hr (.inl rfl) hu (h.reads hu hx)
  rereads hu hx := by
    rw [List.append_assoc, List.cons_append]
    exact reads_spacing (hr (.inr rfl) hu (h.rereads hu hx))
  text := by
    rw [h.text, text_pushToken]
    simp
  empty he := by
    simp [ht.text_ne_nil] at he
  noGroup ho hu e := by
    rw [List.append_assoc, List.cons_append] at e
    rw [e, noGroup_spacing hb]
    rwa [List.cons_append, noGroup_cons (by simp [Token.isBlank, hb])] at ho
  marker hn hbal hm := by
    have htx := h.text
    rw [text_pushToken, hm, spacing, hn, if_neg (by simp [needsSpace])] at htx
    obtain ⟨d, u, hd⟩ := List.exists_cons_of_ne_nil ht.text_ne_nil
    rw [hd] at htx
    obtain ⟨rfl, hu⟩ := List.cons.inj htx
    have hu : u = [] := (List.append_eq_nil_iff.1 hu.symm).1
    rw [hc (isComma_of_text ht (hu ▸ hd))] at hbal
    cases hbal
  source := nofun
  blanks := by simp
  head hn u hu := by
    rw [spacing_of_empty hn] at hu
    obtain rfl := Option.some.inj hu
    simp [Token.isBlank, hb]
  same hn u hu _ := by
    rw [spacing_of_empty hn]
    exact hu
  ends := h.ends
  relaid he := by
    obtain ⟨h₁, h₂, h₃⟩ := h.relaid he
    have := relaid_push hf ht pt.neat hb ha h₁ h₂ (h₃ t rfl)
    simpa using this

/-- What parentheses enclose after `IN` is read as the query `q`, and so are the tokens `b'`, by
which it is written. -/
structure Body (b : List Token) (q : Query) (b' : List Token) : Prop where
  parse : parseTokens [] b {} = .ok q
  reparse : parseTokens [] b' {} = .ok q
  text : " (".toList ++ textOf b' ++ [')'] = membershipText q
  balanced : Balanced b'
  relaid : ∀ {z vs ps}, Ending z vs ps → (∀ t ∈ ps.head?, t.isBlank = false) →
    Relaid z (b ++ vs) (b' ++ ps)

theorem ending_closing {e : Token} (he : e.isCloseParen = true) {z ts ps : List Token}
    (h : Relaid z ts ps) (hl : Loose e ps) : Ending z (e :: ts) (e :: ps) := by
  obtain ⟨hk, hx, hb, hw⟩ := isBlank_of_isCloseParen he
  refine ⟨.keep hb (by simp [hk]) hl (fun h ↦ by rw [hw] at h; cases h) h, ?_,
    ahead_symbol hb hw ts,
    ahead_symbol hb hw ps⟩
  rw [textOf_cons, hx]
  exact ⟨by simp [Grammar.Delimited, Grammar.isDelimiter], by simp⟩

/-- `IN` and the parentheses after it. -/
theorem Rewrites.member {gs b b' : List Token} {o e : Token} {q : Query} (hb : Body b q b')
    (h : Rewrites c n ((f.pushToken t).pushText (membershipText q)) (some e) orig its g)
    (hf : f.EndsIn p) (ht : Lexical t) (pt : Steady t) (hk : t.kind = .membership)
    (ha : ∀ q ∈ p, Apart q t) (hg : ∀ u ∈ gs, u.isBlank = true) (ho : o.isOpenParen = true)
    (he : e.isCloseParen = true) (hbal : Balanced b) :
    Rewrites c n f p (t :: (gs ++ o :: (b ++ e :: orig)))
      (spacing f t ++ t :: Token.space :: o :: (b' ++ e :: its)) g where
  reads hu hr := by
    have := Reads.member hk hg ho he hbal hb.parse (h.reads hu hr)
    simpa using this
  rereads hu hr := by
    have hgap : ∀ u ∈ [Token.space], u.isBlank = true := by simp [Token.space, Token.isBlank]
    have := Reads.member hk hgap ho he hb.balanced hb.reparse (h.rereads hu hr)
    simpa using reads_spacing this
  text := by
    have ho := (isBlank_of_isOpenParen ho).2.1
    have he := (isBlank_of_isCloseParen he).2.1
    rw [h.text, pushText, text_pushToken, ← hb.text]
    simp [ho, he, Token.space]
  empty hx := by
    simp [ht.text_ne_nil] at hx
  noGroup _ _ hx := by
    rw [List.append_assoc, List.cons_append] at hx
    rw [hx, noGroup_spacing (by simp [hk])]
    simp [isOpenParen, hk]
  marker hn _ hm := by
    have htx := h.text
    rw [hm, pushText, text_pushToken, ← hb.text] at htx
    have := congrArg List.length htx
    simp at this
    omega
  source := nofun
  blanks := by simp
  head hn u hu := by
    rw [spacing_of_empty hn] at hu
    obtain rfl := Option.some.inj hu
    simp [Token.isBlank, hk]
  same hn u hu _ := by
    rw [spacing_of_empty hn]
    exact hu
  ends := h.ends
  relaid {z vs ps} hz := by
    obtain ⟨h₁, h₂, h₃⟩ := h.relaid hz
    obtain ⟨hok, -, hob, how⟩ := isBlank_of_isOpenParen ho
    have hbody := hb.relaid (ending_closing he h₁ (h₃ e rfl))
      fun u hu ↦ Option.some.inj hu ▸ (isBlank_of_isCloseParen he).2.2.1
    have hopen := Relaid.keep hob (by simp [hok]) (.inl hok)
      (fun hw ↦ by rw [how] at hw; cases hw) hbody
    have hpad := Relaid.blanks hg (.pad
      (g := [' ']) (by simp) (by simp [Text.isBlank]) (by simpa using hob) hopen)
    have hah : ahead (gs ++ o :: (b ++ e :: (orig ++ vs))) =
        ahead (Token.space :: o :: (b' ++ e :: (its ++ ps))) := by
      rw [ahead_blanks hg, ahead_symbol hob how, ahead_blank rfl, ahead_symbol hob how]
    have := relaid_push hf ht pt.neat (by simp [hk]) ha hpad hah (loose_space t _)
    simpa [Token.space] using this

/-- The parentheses of a table function. -/
theorem Rewrites.raw {b : List Token} {o e : Token}
    (h : Rewrites c n (f.pushText ('(' :: textOf b ++ [')'])) (some e) orig its g)
    (hne : f.text ≠ []) (hc : c = .source) (hd : f.isBalanced = true)
    (hn : f.endsInTableFunction = true) (ho : o.isOpenParen = true) (he : e.isCloseParen = true)
    (hbal : Balanced b) :
    Rewrites c n f p (o :: (b ++ e :: orig)) (o :: (b ++ e :: its)) g where
  reads hu hr := by
    have := Reads.raw hc hd hn ho he hbal (h.reads hu hr)
    simpa using this
  rereads hu hr := by
    have := Reads.raw hc hd hn ho he hbal (h.rereads hu hr)
    simpa using this
  text := by
    have ho := (isBlank_of_isOpenParen ho).2.1
    have he := (isBlank_of_isCloseParen he).2.1
    rw [h.text, pushText]
    simp [ho, he]
  empty hx := by
    simp [(isBlank_of_isOpenParen ho).2.1] at hx
  noGroup hx _ _ := by
    rw [List.cons_append, noGroup_cons (isBlank_of_isOpenParen ho).2.2.1, ho] at hx
    cases hx
  marker hx := absurd hx hne
  source := nofun
  blanks := nofun
  head hx := absurd hx hne
  same hx := absurd hx hne
  ends := h.ends
  relaid {z vs ps} hz := by
    obtain ⟨h₁, h₂, h₃⟩ := h.relaid hz
    obtain ⟨hok, hot, hob, how⟩ := isBlank_of_isOpenParen ho
    have hl : Delimited (textOf (its ++ ps)) := by
      have hk := (isBlank_of_isCloseParen he).1
      rcases h₃ e rfl with hl | ⟨hl, -⟩ | ⟨hl, -⟩
      · rw [hk] at hl
        cases hl
      · rw [hk] at hl
        cases hl
      · exact hl
    refine ⟨?_, ?_, fun q _ ↦ ?_⟩
    · have := Relaid.keep hob (by simp [hok]) (.inl hok) (fun hw ↦ by rw [how] at hw; cases hw)
        (Relaid.raw (b := b) he hl h₁)
      simpa using this
    · rw [List.cons_append, List.cons_append, ahead_symbol hob how, ahead_symbol hob how]
    · rw [List.cons_append, Loose, textOf_cons, hot]
      exact .inr (.inr ⟨by simp [Grammar.Delimited, Grammar.isDelimiter], fun _ ↦ by simp; rfl⟩)

end QueryTemplate
