import QueryTemplate.Proofs.Query.Filling
import QueryTemplate.Proofs.Query.Placed
namespace QueryTemplate

open Token Fragment Grammar

/-- Tokens start with a clause keyword. -/
def Headed (ts : List Token) : Prop := ∃ t us, ts = t :: us ∧ t.kind = .clause ∧ Lexical t

variable {a b ts us : List Token} {t : Token} {xs ys : List Filling} {x : Filling} {q r : Query}
    {c : Clause}

namespace Headed

theorem cons (hk : t.kind = .clause) (ht : Lexical t) (us : List Token) : Headed (t :: us) :=
  ⟨t, us, rfl, hk, ht⟩

theorem append (h : Headed a) (b : List Token) : Headed (a ++ b) := by
  obtain ⟨t, us, rfl, hk, ht⟩ := h
  exact .cons hk ht _

theorem ahead (h : Headed ts) : ahead ts = [] := by
  obtain ⟨t, us, rfl, hk, vs, hl⟩ := h
  exact hl.ahead_clause hk

theorem noGroup (h : Headed ts) : NoGroup ts := by
  obtain ⟨t, us, rfl, hk, -⟩ := h
  exact (noGroup_cons (by simp [Token.isBlank, hk]) us).2 (by simp [isOpenParen, hk])

theorem head (h : Headed ts) : ∀ u ∈ ts.head?, u.isBlank = false := by
  obtain ⟨t, us, rfl, hk, -⟩ := h
  intro u hu
  obtain rfl := Option.some.inj hu
  simp [Token.isBlank, hk]

theorem ne_nil (h : Headed ts) : ts ≠ [] := by
  obtain ⟨t, us, rfl, -⟩ := h
  simp

theorem textOf_ne_nil (h : Headed ts) : textOf ts ≠ [] := by
  obtain ⟨t, us, rfl, -, ht⟩ := h
  simp [ht.text_ne_nil]

/-- A line break before a clause keyword ends what stands before it. -/
theorem ending {z vs ps : List Token} {gap : Token} (hg : IsGap gap) (hv : Headed vs)
    (hp : Headed ps) (h : Relaid z vs ps) :
    Ending z vs (gap :: ps) :=
  ⟨h.gap hg hp.head, sealed_gap hg ps, hv.ahead, (ahead_blank hg.isBlank ps).trans hp.ahead⟩

end Headed

/-- Tokens put the fillings `xs` into a query, and so do the tokens by which these are printed. -/
structure Prints (ts : List Token) (xs : List Filling) : Prop where
  fills : Fills ts xs
  headed : Headed ts
  printed : ∀ indent, IsIndent indent →
    ∃ ps, Text.join ['\n'] (xs.flatMap (·.lines indent)) = indent ++ textOf ps ∧
    Headed ps ∧ Fills ps xs ∧ ∀ {z vs us}, Ending z vs us → Relaid z (ts ++ vs) (ps ++ us)

theorem Prints.append (ha : Prints a xs) (hb : Prints b ys) : Prints (a ++ b) (xs ++ ys) where
  fills := Fills.append ha.fills hb.fills fun us _ ↦ (hb.headed.append us).noGroup
  headed := ha.headed.append b
  printed indent hi := by
    have hne : ∀ {ls : List Text} {ps : List Token}, Text.join ['\n'] ls = indent ++ textOf ps →
        Headed ps → ls ≠ [] := by
      rintro ls ps h hp rfl
      exact hp.textOf_ne_nil (List.append_eq_nil_iff.1 h.symm).2
    obtain ⟨ps, htext, hhead, hfills, hrelaid⟩ := ha.printed indent hi
    obtain ⟨us, utext, uhead, ufills, urelaid⟩ := hb.printed indent hi
    refine ⟨ps ++ newLine indent :: us, ?_, hhead.append _, ?_, fun {z vs ws} he ↦ ?_⟩
    · rw [List.flatMap_append, join_append _ (hne htext hhead) (hne utext uhead), htext, utext]
      simp [newLine]
    · exact Fills.append hfills (Fills.blank ufills hi.isGap.isBlank) fun ws _ ↦
        (noGroup_blank hi.isGap.isBlank _).2 (uhead.append ws).noGroup
    · have hend := Headed.ending hi.isGap (hb.headed.append vs) (uhead.append ws) (urelaid he)
      simpa using hrelaid hend

/-- A query that is read from tokens and again from the tokens by which it is printed. -/
structure Reprints (ts : List Token) (q : Query) : Prop where
  parse : parseTokens [] ts {} = .ok q
  clausal : q.Clausal
  printed : ∀ indent, IsIndent indent → ∃ ps, q.printAt indent = indent ++ textOf ps ∧ Headed ps ∧
    (∀ gs, (∀ g ∈ gs, g.isBlank = true) → parseTokens [] (ps ++ gs) {} = .ok q) ∧
    ∀ {z vs us}, Ending z vs us → Relaid z (ts ++ vs) (ps ++ us)

/-- A statement after `IN`. -/
theorem Reprints.body (h : Reprints b q) (hb : Balanced b) : ∃ b', Body b q b' := by
  have hnil : IsIndent [] := nofun
  have htab : IsIndent Query.tab := hnil.tab
  obtain ⟨ps, htext, hhead, hparse, hrelaid⟩ := h.printed Query.tab htab
  refine ⟨newLine Query.tab :: (ps ++ [newLine []]), h.parse, ?_, ?_, ?_, fun {z vs us} he hu ↦ ?_⟩
  · rw [parse_blank htab.isGap.isBlank]
    exact hparse _ (by simp [hnil.isGap.isBlank])
  · rw [membershipText, h.clausal.isBareRoot, htext]
    simp [newLine]
  · have hps := (hrelaid (.nil (z := []) rfl)).balanced (by simpa using hb)
    rw [List.append_nil] at hps
    have hk : ∀ d (ts : List Token) indent, depthRun d (newLine indent :: ts) = depthRun d ts :=
      fun _ _ _ ↦ rfl
    rw [Balanced, hk, depthRun_append, hps]
    rfl
  · have hend : Ending z vs (newLine [] :: us) :=
      ⟨he.relaid.gap hnil.isGap hu, sealed_gap hnil.isGap us, he.old,
        (ahead_blank hnil.isGap.isBlank us).trans he.new⟩
    have := (hrelaid hend).gap htab.isGap (hhead.append _).head
    simpa using this

/-- A list that no comma starts is written anew without one. -/
theorem exists_listed_of_noComma {n : Bool} (h : Pending c n {} none 0 ts) (hcom : NoComma ts) :
    ∃ items cells, Listed c n ts items 0 cells ∧ (ts.dropWhile isBlank ≠ [] → items ≠ []) := by
  have hblank : ∀ u ∈ ts.takeWhile isBlank, u.isBlank = true :=
    List.all_eq_true.1 List.all_takeWhile
  have hsplit := List.takeWhile_append_dropWhile (p := isBlank) (l := ts)
  have hdrop := h.dropBlank
  rw [NoComma] at hcom
  cases e : ts.dropWhile isBlank with
  | nil =>
    rw [e] at hsplit
    exact ⟨[], [], hsplit ▸ Listed.nil.blanks hblank, fun h ↦ absurd rfl h⟩
  | cons u us =>
    rw [e] at hsplit hdrop hcom
    obtain ⟨items, k, cells, hlist⟩ := exists_listed hdrop
    have hu : u.isBlank = false := by
      have := List.head_dropWhile_not (p := isBlank) (l := ts) (by simp [e])
      simpa [e] using this
    have hhead := hlist.same u rfl hu (hcom u rfl) _ isGap_space
    cases k with
    | succ k =>
      rw [laid_succ, spread, List.replicate_succ, List.cons_append] at hhead
      obtain rfl := Option.some.inj hhead
      cases hcom _ rfl
    | zero =>
      refine ⟨items, cells, hsplit ▸ hlist.blanks hblank, fun _ hitems ↦ ?_⟩
      obtain ⟨x, cells, rfl⟩ : ∃ x xs, cells = x :: xs :=
        List.exists_cons_of_ne_nil (by rintro rfl; cases hhead)
      have hshape := hlist.shape
      rw [Shape, hitems] at hshape
      split at hshape
      · exact absurd hshape.1 (by simp [Cell.items])
      · exact absurd hshape.1 (by simp)

/-- A clause that is a list is written anew, whatever gaps are put between its items. -/
theorem Listed.relaid_clause {items : List Text} {cells : List Cell} {gap : Token}
    {z vs ws : List Token} (hlist : Listed c false us items 0 cells)
    (hw : Clause.ofKeyword? t.keyword = some c) (hk : t.kind = .clause)
    (hcom : NoComma us ∨ t.keyword ≠ "with") (hgap : IsGap gap) (he : Ending z vs ws) :
    Relaid z (t :: us ++ vs) (c.title :: spread gap 0 cells ++ ws) := by
  obtain ⟨hl, -, hkey⟩ := title_spec c (List.mem_of_find?_eq_some hw)
  have hname : c.name = t.keyword := by simpa using List.find?_some hw
  obtain ⟨hrel, hseal⟩ := hlist.relaid_spread hgap he
  have hsp : ahead (spread gap 0 cells ++ ws) = ahead (laid gap 0 cells ++ ws) := by
    rcases hlist.spread_eq hgap with ⟨e, -⟩ | ⟨e, -⟩
    · rw [e]
    · rw [e, List.cons_append, ahead_blank hgap.isBlank]
  refine .rewrite (Token.isTitle_of_clause hk) hk.symm (hkey.trans hname) hl hseal.1 ?_ hrel
  rcases hcom with hcom | hne
  · exact .inr (((hlist.relaid _ hgap he).2 hcom).trans hsp.symm)
  · exact .inl ⟨hk, hne⟩

theorem Listed.prints {items : List Text} {cells : List Cell}
    (hlist : Listed c false us items 0 cells) (hw : Clause.ofKeyword? t.keyword = some c)
    (hk : t.kind = .clause) (ht : Lexical t) (hb : Balanced us)
    (hcom : NoComma us ∨ t.keyword ≠ "with") :
    Prints (t :: us) [.items c items] := by
  have hkw : c ∈ Clause.keywordClauses := List.mem_of_find?_eq_some hw
  obtain ⟨hl, htw, -⟩ := title_spec c hkw
  refine ⟨fills_items hk hw hlist.reads hb, .cons hk ht us, fun indent hi ↦ ?_⟩
  have hgap := hi.itemGap cells
  refine ⟨c.title :: spread (itemGap indent cells) 0 cells, ?_, .cons rfl ⟨_, hl⟩ _, ?_,
    hlist.relaid_clause hw hk hcom hgap⟩
  · rw [List.flatMap_singleton, Filling.lines, Query.join_listLines hkw hi hlist.good hlist.shape]
  · have hrel := (hlist.relaid_spread hgap (.nil (z := []) rfl)).1
    rw [List.append_nil, List.append_nil] at hrel
    intro q d us hd hq hu
    exact fills_items (t := c.title) rfl htw (hlist.rereads_spread hgap) (hrel.balanced hb) hd hq hu

/-- A clause that is a list. -/
theorem prints_items (hw : Clause.ofKeyword? t.keyword = some c) (hk : t.kind = .clause)
    (ht : Lexical t) (h : Pending c false {} none 0 us) (hcom : NoComma us) :
    ∃ items, Prints (t :: us) [.items c items] ∧ (us.dropWhile isBlank ≠ [] → items ≠ []) := by
  obtain ⟨items, cells, hlist, hne⟩ := exists_listed_of_noComma h hcom
  exact ⟨items, hlist.prints hw hk ht h.balanced (.inl hcom), hne⟩

theorem loose_of_sealed {z : List Token} (h : Sealed (textOf z)) (t : Token) : Loose t z :=
  .inr (.inr ⟨h.1, fun _ ↦ h.stops_numeric⟩)

theorem depthRun_newLine (d : Nat) (indent : Text) (ts : List Token) :
    depthRun d (newLine indent :: ts) = depthRun d ts := rfl

/-- What a statement between parentheses is printed by. -/
def parenthesizedTokens (indent : Text) (o e : Token) (ps : List Token) : List Token :=
  o :: newLine (indent ++ Query.tab) :: (ps ++ [newLine indent, e])

/-- A statement between parentheses is printed over several lines, whatever follows it. -/
theorem relaid_parenthesized {indent : Text} {gs ps z vs ws : List Token} {o e : Token}
    (hi : IsIndent indent) (hg : ∀ u ∈ gs, u.isBlank = true) (ho : o.isOpenParen = true)
    (he : e.isCloseParen = true) (hp : Headed ps)
    (h : ∀ {z vs us}, Ending z vs us → Relaid z (b ++ vs) (ps ++ us)) (hrel : Relaid z vs ws)
    (hl : Loose e ws) :
    Relaid z (gs ++ o :: (b ++ e :: vs)) (Token.space ::
      (parenthesizedTokens indent o e ps ++ ws)) := by
  obtain ⟨hok, -, hob, how⟩ := isBlank_of_isOpenParen ho
  obtain ⟨-, -, heb, -⟩ := isBlank_of_isCloseParen he
  have hout := hi.isGap
  have hclose := ending_closing he hrel hl
  have hend : Ending z (e :: vs) (newLine indent :: e :: ws) :=
    ⟨hclose.relaid.gap hout (by simpa using heb), sealed_gap hout _, hclose.old,
      (ahead_blank hout.isBlank _).trans hclose.new⟩
  have hopen := (Relaid.keep hob (by simp [hok]) (.inl hok) (by simp [how])
    ((h hend).gap hi.tab.isGap (hp.append _).head)).blanks hg
  simpa [parenthesizedTokens] using hopen.gap isGap_space (by simpa using hob)

/-- What stands between the printed parentheses is read as the statement. -/
theorem parse_parenthesized {indent : Text} {ps : List Token} (hi : IsIndent indent)
    (hb : Balanced b)
    (hr : ∀ gs, (∀ g ∈ gs, g.isBlank = true) → parseTokens [] (ps ++ gs) {} = .ok r)
    (h : ∀ {z vs us}, Ending z vs us → Relaid z (b ++ vs) (ps ++ us)) :
    Balanced (newLine (indent ++ Query.tab) :: (ps ++ [newLine indent])) ∧
      parseTokens [] (newLine (indent ++ Query.tab) :: (ps ++ [newLine indent])) {} = .ok r := by
  have hps := (h (.nil (z := []) rfl)).balanced (by simpa using hb)
  rw [List.append_nil] at hps
  constructor
  · rw [Balanced, depthRun_newLine, depthRun_append, hps]
    rfl
  · rw [parse_blank hi.tab.isGap.isBlank]
    exact hr _ (by simp [hi.isGap.isBlank])

/-- The text of a subquery in `FROM` and its aliases. -/
theorem subqueryLine_eq {indent : Text} {ps : List Token} {o e : Token} {aliases : List Text}
    {cells : List Cell} (ho : o.isOpenParen = true) (he : e.isCloseParen = true)
    (htext : r.printAt (indent ++ Query.tab) = indent ++ Query.tab ++ textOf ps)
    (hlist : Listed (.slot .aliases) false us aliases 0 cells) (hle : cells.length ≤ 1)
    (hi : IsIndent indent)
    (hl : Lexed (Clause.source.title :: Token.space :: parenthesizedTokens indent o e ps))
    (hc : ∀ t ∈ parenthesizedTokens indent o e ps, t.kind ≠ .comment) :
    Query.subqueryLine indent r aliases =
      indent ++ textOf (Clause.source.title :: Token.space ::
          (parenthesizedTokens indent o e ps ++ spread Token.space 0 cells)) := by
  have hot := (isBlank_of_isOpenParen ho).2.1
  have het := (isBlank_of_isCloseParen he).2.1
  have hnot := hi.endsInLineComment hl (by simp [Clause.title, isBlank])
    (by simpa [Clause.title, Token.space] using hc)
  have htitle : Clause.source.title.text = "FROM".toList := by decide
  have hhead : indent ++ "FROM " ++ Query.parenthesized indent (r.lines (indent ++ Query.tab)) =
      indent ++ textOf (Clause.source.title :: Token.space ::
          parenthesizedTokens indent o e ps) := by
    rw [Query.printAt] at htext
    simp [Query.parenthesized, htext, htitle, hot, het, parenthesizedTokens, newLine, Token.space]
  have hs := hlist.shape
  rw [Shape, if_neg (by decide)] at hs
  rw [Query.subqueryLine, hhead, ← List.cons_append, ← List.cons_append, textOf_append,
    ← List.append_assoc]
  rcases cells with _ | ⟨x, _ | ⟨y, cells⟩⟩
  · rw [hs.1]
    simp [spread, trail]
  · have hx := hlist.good x List.mem_cons_self
    have hzero : x.commas = 0 := hs.2
    have hne : textOf x.its ≠ [] := by
      obtain ⟨u, vs, hu⟩ := List.exists_cons_of_ne_nil hx.ne
      have hl := hx.lexed
      rw [hu] at hl ⊢
      simp [hl.text_ne_nil]
    rw [hs.1, List.map_singleton, List.foldl_cons, List.foldl_nil]
    simp only [Query.glue, hx.solid.trimEnd, hne, hnot, if_false, Bool.false_eq_true]
    simp [spread, trail, Cell.tokens, hzero, Token.space]
  · simp at hle

/-- `FROM` and a subquery. -/
theorem Listed.prints_subquery {gs : List Token} {o e : Token} {aliases : List Text}
    {cells : List Cell} (hlist : Listed (.slot .aliases) false us aliases 0 cells)
    (hle : cells.length ≤ 1) (hw : Clause.ofKeyword? t.keyword = some .source)
    (hk : t.kind = .clause) (hg : ∀ u ∈ gs, u.isBlank = true) (ho : o.isOpenParen = true)
    (he : e.isCloseParen = true) (hb : Balanced b) (hus : Balanced us)
    (h : Placed 0 (t :: (gs ++ o :: (b ++ e :: us)))) (hr : Reprints b r) :
    Prints (t :: (gs ++ o :: (b ++ e :: us))) [.subquery r aliases] := by
  obtain ⟨hl, htw, hkey⟩ := title_spec .source (by decide)
  have ht := (h.tokens t List.mem_cons_self).1
  have hname : t.keyword = Clause.source.name := by
    have := List.find?_some hw
    exact (by simpa using this : Clause.source.name = t.keyword).symm
  refine ⟨fun hd hq hu ↦ fills_subquery hk hw hg ho he hb hr.parse hlist.reads hus hd hq hu,
    .cons hk ht _, fun indent hi ↦ ?_⟩
  obtain ⟨ps, htext, hhead, hparse, hrelaid⟩ := hr.printed (indent ++ Query.tab) hi.tab
  -- the line of the subquery, before whatever follows it
  have hline : ∀ {z vs ws}, Relaid z vs ws → Loose e ws →
    Relaid z (t :: (gs ++ o :: (b ++ e :: vs)))
      (Clause.source.title :: Token.space :: (parenthesizedTokens indent o e ps ++ ws)) :=
        fun hrel hloose ↦
    .rewrite (Token.isTitle_of_clause hk) hk.symm (hkey.trans hname.symm) hl
      (sealed_gap isGap_space _).1 (.inl ⟨hk, by rw [hname]; decide⟩)
      (relaid_parenthesized hi hg ho he hhead hrelaid hrel hloose)
  obtain ⟨hbody, hreparse⟩ := parse_parenthesized hi hb hparse hrelaid
  have haliases : Balanced (spread Token.space 0 cells) := by
    have hrel := (hlist.relaid_spread isGap_space (.nil (z := []) rfl)).1
    rw [List.append_nil, List.append_nil] at hrel
    exact hrel.balanced hus
  refine ⟨Clause.source.title :: Token.space ::
    (parenthesizedTokens indent o e ps ++ spread Token.space 0 cells), ?_,
    .cons rfl ⟨_, hl⟩ _, ?_, fun {z vs ws} hend ↦ ?_⟩
  · obtain ⟨z, -, hz, hlex⟩ := h.lexed
    have hrel := hline (.nil (z := us ++ z)) (loose_of_sealed (z := []) sealed_nil e)
    have hlexed := hrel.lexed (by simpa using hlex)
    have hcom := hrel.comment fun u hu ↦ by
      have : u ∈ (t :: (gs ++ o :: (b ++ e :: us))) ++ z := by simpa using hu
      rcases List.mem_append.1 this with hu | hu
      · exact (h.tokens u hu).2.1
      · exact hz u hu
    rw [List.append_nil] at hlexed hcom
    exact subqueryLine_eq ho he htext hlist hle hi hlexed fun u hu ↦ hcom u (by simp [hu])
  · have hfills : Fills (Clause.source.title ::
      ([Token.space] ++ o :: ((newLine (indent ++ Query.tab) :: (ps ++ [newLine indent])) ++
        e :: spread Token.space 0 cells))) [.subquery r aliases] := fun hd hq hu ↦
      fills_subquery rfl htw (by simp [isGap_space.isBlank]) ho he hbody hreparse
        (hlist.rereads_spread isGap_space) haliases hd hq hu
    have hsame : [Token.space] ++ o ::
      ((newLine (indent ++ Query.tab) :: (ps ++ [newLine indent])) ++ e ::
      spread Token.space 0 cells) =
        Token.space :: (parenthesizedTokens indent o e ps ++ spread Token.space 0 cells) := by
          simp [parenthesizedTokens]
    rwa [hsame] at hfills
  · obtain ⟨hrel, hseal⟩ := hlist.relaid_spread isGap_space hend
    have := hline hrel (loose_of_sealed hseal e)
    simpa using this

end QueryTemplate
