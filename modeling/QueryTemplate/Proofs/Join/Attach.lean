import QueryTemplate.Proofs.Join.Tail
namespace QueryTemplate

open Token Fragment Grammar

variable {a b ts us vs w r gs x : List Token} {xs : List (List Token)} {t o e : Token}
    {js ks : List (Join Query)} {y : Trailer}
  {q : Query} {d : Draft}

/-- Tokens put the joins `js` after those of a query, whatever clause or join follows them. -/
structure Adjoins (ts : List Token) (js : List (Join Query)) : Prop where
  parse : ∀ {q : Query} {d : Draft} {us : List Token}, d.Ends q → Halts us →
    ∃ d', parseTokens [] (ts ++ us) d = parseTokens [] us d' ∧
      d'.Ends { q with joins := q.joins ++ js }
  halts : ∀ {us : List Token}, Halts us → Halts (ts ++ us)

theorem Join.readTail_dropWhile (j : Join Query) (us : List Token) :
    readTail j [] (us.dropWhile isBlank) = readTail j [] us := by
  rw [readTail, aliasWords_dropWhile, readTail]

namespace Adjoins

theorem blanks (hg : ∀ g ∈ gs, g.isBlank = true) : Adjoins gs [] where
  parse {q d us} hd _ := by
    refine ⟨d, parse_blanks hg us, ?_⟩
    cases q
    rwa [List.append_nil]
  halts h := h.blanks hg

theorem append (ha : Adjoins a js) (hb : Adjoins b ks) : Adjoins (a ++ b) (js ++ ks) where
  parse {q d us} hd hu := by
    obtain ⟨d₁, h₁, hd₁⟩ := ha.parse hd (hb.halts hu)
    obtain ⟨d₂, h₂, hd₂⟩ := hb.parse hd₁ hu
    rw [List.append_assoc] at hd₂
    exact ⟨d₂, by rw [List.append_assoc, h₁, h₂], hd₂⟩
  halts hu := by
    rw [List.append_assoc]
    exact ha.halts (hb.halts hu)

/-- A join is read in one step. -/
theorem of_step {j : Join Query} (hk : t.kind = .join) (hl : Lexical t)
    (h : ∀ {d : Draft} {us : List Token}, d.action t = .readJoin → Halts us →
      Leaves us (d.step [] t (ts ++ us)) (d.flush.addJoin j)) : Adjoins (t :: ts) [j] where
  parse {q d us} hd hu := by
    have haction : d.action t = .readJoin := by simp [Draft.action, hk, hd.balanced]
    obtain ⟨vs, hs, hv⟩ := h haction hu
    have hfragment : (d.flush.addJoin j).fragment = {} := d.flush_fragment
    have hquery : (d.flush.addJoin j).query = { q with joins := q.joins ++ [j] } := by
      rw [← hd.query]
      rfl
    refine ⟨_, (parseTokens_step hs).trans ?_, ?_, by rw [hfragment]; rfl, fun c _ ↦ by rw [hquery]⟩
    · rw [← parse_dropWhile, hv, parse_dropWhile]
    · rw [Draft.flush_eq_self hfragment, hquery]
  halts _ := halts_cons (by simp [isBreak, hk]) hl _

theorem arrays (hk : t.kind = .join) (hl : Lexical t) (ha : isArrayJoin t = true)
    (h : ∀ y ∈ x :: xs, Enters y) :
    Adjoins (t :: commaList x xs) [{ kind := t.keyword, source := .table ((x :: xs).map fun y ↦ (written y).text) }] := by
  refine of_step hk hl fun {d us} hd hu ↦ ⟨us.dropWhile isBlank, ?_, dropWhile_dropWhile us⟩
  simp only [Draft.step, hd, Join.readSource_arrays ha h hu]
  rfl

theorem table (hk : t.kind = .join) (hl : Lexical t) (ha : isArrayJoin t = false)
    (hn : IsName (inked r)) (hr : Firm r) (hy : ReadsTrailer w y) (hw : WordFirst w) :
    Adjoins (t :: (r ++ w)) [y.join t.keyword (.table [(written r).text])] := by
  refine of_step hk hl fun {d us} hd hu ↦ ?_
  have hleaves : Leaves us (Join.readTail ⟨t.keyword, .table [(written r).text], [], [],
      []⟩ [] (w ++ us)) _ := hy.leaves hu
  obtain ⟨vs, htail, hv⟩ := hleaves
  refine ⟨vs, ?_, hv⟩
  simp only [Draft.step, hd, List.append_assoc,
    Join.readSource_table ha hn hr (hw.append hu.wordFirst).endsName, Except.bind,
    Join.readTail_dropWhile, htail]
  rfl

theorem subquery (hk : t.kind = .join) (hl : Lexical t) (ha : isArrayJoin t = false)
    (hg : ∀ g ∈ gs, g.isBlank = true) (ho : o.isOpenParen = true) (he : e.isCloseParen = true)
    (hb : Balanced b) (hq : parseTokens [] b {} = .ok q) (hy : ReadsTrailer w y) :
    Adjoins (t :: (gs ++ o :: (b ++ e :: w))) [y.join t.keyword (.subquery q)] := by
  refine of_step hk hl fun {d us} hd hu ↦ ?_
  have hleaves : Leaves us (Join.readTail ⟨t.keyword, .subquery q, [], [], []⟩ [] (w ++ us)) _ :=
    hy.leaves hu
  obtain ⟨vs, htail, hv⟩ := hleaves
  have hsplit : gs ++ o :: (b ++ e :: w) ++ us = gs ++ o :: (b ++ e :: (w ++ us)) := by simp
  refine ⟨vs, ?_, hv⟩
  simp only [Draft.step, hd, hsplit, Join.readSource_subquery ha hg ho he hb, Except.bind, hq,
    htail]
  rfl

end Adjoins

/-- A query that is read from tokens and again from the tokens by which it is printed, in lines that
end in no comment. -/
structure Restates (ts : List Token) (q : Query) : Prop where
  parse : parseTokens [] ts {} = .ok q
  lines : ∀ indent, IsIndent indent → ∃ n, Adds (q.lines indent) n
  printed : ∀ indent, IsIndent indent → ∃ ps, q.printAt indent = indent ++ textOf ps ∧ Headed ps ∧
    (∀ gs, (∀ g ∈ gs, g.isBlank = true) → parseTokens [] (ps ++ gs) {} = .ok q) ∧
    ∀ {z vs us}, Ending z vs us → Relaid z (ts ++ vs) (ps ++ us)

/-- Tokens are read as the joins `js`, and so are those by which these are printed. -/
structure Attaches (ts : List Token) (js : List (Join Query)) : Prop where
  reads : Adjoins ts js
  lines : ∀ indent, IsIndent indent → ∃ n, Adds (Query.lines.joinLines indent js) n
  printed : ∀ indent, IsIndent indent →
    ∃ ps, (Query.lines.joinLines indent js).flatMap (['\n'] ++ ·) = textOf ps ∧
    Adjoins ps js ∧ Lays ts ps

theorem joinLines_append (indent : Text) (js ks : List (Join Query)) :
    Query.lines.joinLines indent (js ++ ks) =
      Query.lines.joinLines indent js ++ Query.lines.joinLines indent ks := by
  induction js with
  | nil => rfl
  | cons j js ih =>
    obtain ⟨kind, source, aliases, columns, predicates⟩ := j
    cases source <;> simp only [List.cons_append, Query.lines.joinLines, ih]

/-- The line of a join up to its trailer. -/
def sourceLine (indent kind : Text) : Source Query → Text
  | .table items => Query.glueItems (indent ++ Text.upper kind) items
  | .subquery q => Query.glue (indent ++
      Text.upper kind) (Query.parenthesized indent (q.lines (indent ++ Query.tab)))

theorem joinLines_singleton (indent kind : Text) (source : Source Query) (y : Trailer) :
    Query.lines.joinLines indent [y.join kind source] =
      [Query.joinTail (sourceLine indent kind source) (y.join kind source)] := by
  cases source <;> simp only [Trailer.join, Query.lines.joinLines, sourceLine]

/-- The phrase of a join is printed as one that reads the same. -/
theorem joinTitle_spec (hl : Lexical t) (hk : t.kind = .join) : Lexed [joinTitle t.keyword] ∧
    (joinTitle t.keyword).keyword = t.keyword ∧
      isArrayJoin (joinTitle t.keyword) = isArrayJoin t := by
  obtain ⟨ts, hx⟩ := hl
  obtain ⟨h, hkey⟩ := lexed_joinTitle hx hk
  exact ⟨h, hkey, by rw [isArrayJoin, isArrayJoin, hkey]⟩

namespace Attaches

theorem blanks (hg : ∀ g ∈ gs, g.isBlank = true) : Attaches gs [] where
  reads := .blanks hg
  lines _ _ := ⟨0, .nil⟩
  printed _ _ := ⟨[], rfl, .blanks nofun, .skip hg⟩

theorem append (ha : Attaches a js) (hb : Attaches b ks) : Attaches (a ++ b) (js ++ ks) where
  reads := ha.reads.append hb.reads
  lines indent hi := by
    obtain ⟨n, hn⟩ := ha.lines indent hi
    obtain ⟨m, hm⟩ := hb.lines indent hi
    rw [joinLines_append]
    exact ⟨n + m, hn.append hm⟩
  printed indent hi := by
    obtain ⟨ps, htext, hreads, hlays⟩ := ha.printed indent hi
    obtain ⟨us, utext, ureads, ulays⟩ := hb.printed indent hi
    refine ⟨ps ++ us, ?_, hreads.append ureads, hlays.append ulays⟩
    rw [joinLines_append, List.flatMap_append, htext, utext, textOf_append]

theorem of_line {source : Source Query} {ps : List Token} (hk : t.kind = .join) (hl : Lexical t)
    (hy : Completes w ps y) (hj : Adjoins (t :: (ts ++ w)) [y.join t.keyword source])
    (h : ∀ indent, IsIndent indent →
      ∃ us, sourceLine indent t.keyword source = indent ++ Text.upper t.keyword ++ textOf us ∧
      (∃ n, tally false (sourceLine indent t.keyword source) = some (n, false)) ∧
      Adjoins (joinTitle t.keyword :: (us ++ ps)) [y.join t.keyword source] ∧ Lays ts us) :
    Attaches (t :: (ts ++ w)) [y.join t.keyword source] where
  reads := hj
  lines indent hi := by
    obtain ⟨us, -, ⟨n, hn⟩, -, -⟩ := h indent hi
    obtain ⟨hline, m, hm⟩ := hy.printable.joinTail hn t.keyword source
    rw [joinLines_singleton, hline]
    exact ⟨m, .singleton hm⟩
  printed indent hi := by
    obtain ⟨us, htext, ⟨n, hn⟩, hreads, hlays⟩ := h indent hi
    obtain ⟨htitle, hkey, -⟩ := joinTitle_spec hl hk
    refine ⟨newLine indent :: joinTitle t.keyword :: (us ++ ps), ?_, ?_, ?_⟩
    · rw [joinLines_singleton, (hy.printable.joinTail hn t.keyword source).1, htext, ← hy.text]
      simp [newLine, joinTitle]
    · exact Adjoins.append (.blanks (isBlank_of_newLine hi)) hreads
    · exact (Lays.title hl (by simp [Token.isTitle, hk]) htitle hk.symm hkey hi.isGap).append
        (hlays.append hy.lays)

theorem arrays (hk : t.kind = .join) (ha : isArrayJoin t = true)
    (hm : Material (t :: commaList x xs)) (h : ∀ y ∈ x :: xs, Enters y) :
    Attaches (t :: commaList x xs) [{ kind := t.keyword, source := .table ((x :: xs).map fun y ↦ (written y).text) }] := by
  have hl := (hm.firm t List.mem_cons_self).1
  obtain ⟨ht, hkey, harr⟩ := joinTitle_spec hl hk
  have hne : ∀ y ∈ x :: xs, inked y ≠ [] := fun y hy ↦ (h y hy).entry.1.1
  have hp : ∀ s ∈ (x :: xs).map fun y ↦ (written y).text, Phrased s :=
    List.forall_mem_map.2 fun y hy ↦ (h y hy).firm.phrased (hne y hy)
  have htext := textOf_commaList_spell (List.forall_mem_cons.1 hne).2 (spell x)
  rw [textOf_spell_ink (hne x List.mem_cons_self)] at htext
  have hspell : ∀ y ∈ spell x :: xs.map spell, Enters y := by
    rw [← List.map_cons]
    exact List.forall_mem_map.2 fun y hy ↦ (h y hy).spell
  have hnew := Adjoins.arrays (t := joinTitle t.keyword) rfl ⟨[], ht⟩ (harr.trans ha) hspell
  have hsame : ((x :: xs).map spell).map (fun y ↦ (written y).text) =
      (x :: xs).map fun y ↦ (written y).text := by
    rw [List.map_map]
    exact List.map_congr_left fun y _ ↦ congrArg Fragment.text (written_congr (inked_spell y))
  rw [← List.map_cons, hsame, hkey] at hnew
  have hnone : Completes [] [] {} :=
    completes_words (w := []) nofun ⟨nofun, hm.tail.apart.left (a := [])⟩
  rw [← List.append_nil (commaList x xs)]
  refine of_line hk hl hnone ?_ fun indent hi ↦ ⟨_, ?_,
    ⟨_, tally_glueItems (tally_joinTitle hi hl hk) (adds_of_phrased hp)⟩, ?_,
    lays_commaList hm.tail⟩
  · rw [List.append_nil]
    exact .arrays hk hl ha h
  · rw [htext, join_cons, List.cons_append, ← join_cons]
    exact glueItems_eq (tally_joinTitle hi hl hk) hp
  · rwa [List.append_nil]

theorem table (hk : t.kind = .join) (ha : isArrayJoin t = false) (hm : Material (t :: (r ++ w)))
    (hn : IsName (inked r)) {ps : List Token} (hy : Completes w ps y) :
    Attaches (t :: (r ++ w)) [y.join t.keyword (.table [(written r).text])] := by
  have hl := (hm.firm t List.mem_cons_self).1
  have hr := hm.tail.left
  obtain ⟨ht, hkey, harr⟩ := joinTitle_spec hl hk
  have hne : inked r ≠ [] := by
    obtain ⟨n, ns, hi, -⟩ := hn
    rw [hi]
    exact List.cons_ne_nil _ _
  have hp : ∀ s ∈ [(written r).text], Phrased s := List.forall_mem_singleton.2 (hr.firm.phrased hne)
  have hnew := Adjoins.table (t := joinTitle t.keyword) (r := spell r) rfl ⟨[],
    ht⟩ (harr.trans ha) (by rwa [inked_spell]) hr.firm.spell
    hy.new hy.first.2
  rw [hkey, written_congr (inked_spell r)] at hnew
  refine of_line hk hl hy (.table hk hl ha hn hr.firm hy.old hy.first.1) fun indent hi ↦
    ⟨_, ?_, ⟨_, tally_glueItems (tally_joinTitle hi hl hk) (adds_of_phrased hp)⟩, hnew,
      Lays.spell hr⟩
  rw [textOf_spell_ink hne]
  exact glueItems_eq (tally_joinTitle hi hl hk) hp

end Attaches

theorem trimEnd_parenthesized (indent : Text) (ls : List Text) :
    Text.trimEnd (Query.parenthesized indent ls) = Query.parenthesized indent ls := by
  have hclose : Text.trimEnd [')'] = [')'] := by decide
  have hink : ∃ c ∈ [')'], Text.isSpace c = false := ⟨')', List.mem_singleton_self _, by decide⟩
  rw [parenthesized_eq]
  exact (trimEnd_append hink _).trans (congrArg _ hclose)

/-- A statement in parentheses is printed over several lines. -/
theorem lays_parenthesized {indent : Text} {ps : List Token} (hi : IsIndent indent)
    (hg : ∀ g ∈ gs, g.isBlank = true) (ho : o.isOpenParen = true) (he : e.isCloseParen = true)
    (hp : Headed ps) (h : ∀ {z vs us}, Ending z vs us → Relaid z (b ++ vs) (ps ++ us)) :
    Lays (gs ++ o :: (b ++ [e])) (Token.space :: parenthesizedTokens indent o e ps) := by
  obtain ⟨-, -, hob, how⟩ := isBlank_of_isOpenParen ho
  refine ⟨fun {z vs us} hz ↦ ?_⟩
  have hrel := relaid_parenthesized hi hg ho he hp h hz.relaid (hz.loose e)
  have hsplit : gs ++ o :: (b ++ [e]) ++ vs = gs ++ o :: (b ++ e :: vs) := by simp
  rw [hsplit]
  exact ⟨hrel, sealed_gap isGap_space _, (ahead_blanks hg _).trans ((ahead_symbol hob how _).trans
    ((ahead_blank isGap_space.isBlank _).trans (ahead_symbol hob how _)).symm)⟩

theorem Attaches.subquery {ps : List Token} (hk : t.kind = .join) (ha : isArrayJoin t = false)
    (hl : Lexical t) (hg : ∀ g ∈ gs, g.isBlank = true) (ho : o.isOpenParen = true)
    (he : e.isCloseParen = true) (hb : Balanced b) (hq : Restates b q) (hy : Completes w ps y) :
    Attaches (t :: ((gs ++ o :: (b ++ [e])) ++ w)) [y.join t.keyword (.subquery q)] := by
  obtain ⟨ht, hkey, harr⟩ := joinTitle_spec hl hk
  refine of_line hk hl hy ?_ fun indent hi ↦ ?_
  · have := Adjoins.subquery hk hl ha hg ho he hb hq.parse hy.old
    simpa using this
  obtain ⟨us, htext, hhead, hparse, hrelaid⟩ := hq.printed (indent ++ Query.tab) hi.tab
  obtain ⟨n, hn⟩ := hq.lines (indent ++ Query.tab) hi.tab
  have hpar := tally_parenthesized_lines hi hn
  have hphrase := tally_joinTitle hi hl hk
  obtain ⟨hbody, hreparse⟩ := parse_parenthesized hi hb hparse hrelaid
  have hnew := Adjoins.subquery (t := joinTitle t.keyword) rfl ⟨[],
    ht⟩ (harr.trans ha) isBlank_of_space ho he hbody hreparse hy.new
  refine ⟨Token.space :: parenthesizedTokens indent o e us, ?_, ⟨_, tally_glue hphrase hpar⟩, ?_,
    lays_parenthesized hi hg ho he hhead hrelaid⟩
  · rw [sourceLine, glue_eq hphrase (trimEnd_parenthesized _ _) (by simp [parenthesized_eq])]
    rw [Query.printAt] at htext
    simp [Query.parenthesized, htext, (isBlank_of_isOpenParen ho).2.1,
      (isBlank_of_isCloseParen he).2.1, parenthesizedTokens, newLine, Token.space]
  · rw [hkey] at hnew
    simpa [parenthesizedTokens] using hnew

end QueryTemplate
