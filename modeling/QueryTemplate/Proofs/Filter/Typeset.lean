import QueryTemplate.Proofs.Query.Block
import QueryTemplate.Proofs.Filter.Inject
namespace QueryTemplate

open Token Fragment Grammar

variable {a b c ts ps : List Token} {cs ds : List (List Token)} {t gap : Token} {indent : Text}
  {P : Token → Prop}

/-- The tokens of a predicate that is put into `WHERE` as it is. -/
structure IsCondition (P : Token → Prop) (c : List Token) : Prop extends IsBlock P c where
  marker : textOf c ≠ [',']

/-- A predicate after `AND`. -/
def linked (c : List Token) : List Token := Token.and :: space :: c

theorem IsCondition.isBlock_linked (hP : Lax P) (h : IsCondition P c) : IsBlock P (linked c) where
  tokens := List.forall_mem_cons.2 ⟨hP _ (by decide),
    List.forall_mem_cons.2 ⟨hP _ (by decide), h.tokens⟩⟩
  lexed := (h.lexed.space_cons h.head).and_cons (stops_space _)
  ne_nil := by simp [linked]
  comment := by simpa [linked, Token.and, space] using h.comment
  head := by
    rintro t ⟨⟩
    rfl
  last t ht := by
    obtain ⟨u, us, rfl⟩ := List.exists_cons_of_ne_nil h.ne_nil
    exact h.last t (by simpa [linked] using ht)
  opener := opensComment_cons (.inl (by decide)) (opensComment_cons (.inl (by decide)) h.opener)

theorem ahead_linked (hP : Lax P) (h : IsCondition P c) : ahead (linked c) = [] :=
  (h.isBlock_linked hP).lexed.ahead_conjunction rfl

/-- Predicates after `AND` follow a clause one by one. -/
theorem IsBlock.links (hP : Lax P) (ha : IsBlock P a) (hcs : ∀ c ∈ cs, IsCondition P c)
    (hgap : IsGap gap) :
    IsBlock P (a ++ trail gap (cs.map fun c ↦ ⟨linked c, 0⟩)) := by
  induction cs generalizing a with
  | nil => simpa [trail] using ha
  | cons c cs ih =>
    obtain ⟨hc, hcs⟩ := List.forall_mem_cons.1 hcs
    have := ih (ha.append hP (hc.isBlock_linked hP) (ahead_linked hP hc) hgap) hcs
    simpa [trail, Cell.tokens] using this

theorem isInfix_of_mem_links (h : c ∈ cs) (gap : Token) :
    c <:+: trail gap (cs.map fun c ↦ ⟨linked c, 0⟩) := by
  rw [trail, List.flatMap_map, List.flatMap_def]
  refine List.IsInfix.trans ?_ (List.infix_of_mem_flatten (List.mem_map_of_mem h))
  exact ⟨[gap, Token.and, space], [], by simp [linked, Cell.tokens]⟩

namespace Filter

theorem conjoin_of_ne_nil {items : List Text} (h : items ≠ []) (conditions : List Text) :
    conjoin items conditions = items ++ conditions.map ("AND ".toList ++ ·) := by
  induction conditions generalizing items with
  | nil => simp [conjoin]
  | cons c cs ih =>
    have := @ih (items ++ ["AND ".toList ++ c]) (by simp)
    rw [conjoin, List.foldl_cons, if_neg h, ← conjoin]
    simpa using this

theorem conjoin_nil (c : Text) (cs : List Text) :
    conjoin [] (c :: cs) = c :: cs.map ("AND ".toList ++ ·) :=
  conjoin_of_ne_nil (List.cons_ne_nil c []) cs

end Filter

/-- Lines that hold the runs of tokens `cs`. -/
def Typeset (P : Token → Prop) (cs : List (List Token)) (lines : Text → List Text) : Prop :=
  ∀ indent, IsIndent indent → ∃ ps, Text.join ['\n'] (lines indent) = indent ++ textOf ps ∧
    Headed ps ∧ IsBlock P ps ∧ ∀ c ∈ cs, c <:+: ps

theorem Prints.typeset {xs : List Filling} (hP : Lax P) (h : Prints ts xs) (ht : ∀ t ∈ ts, P t)
    (hp : Placed 0 ts) (ho : opensComment ts = false) :
    Typeset P [] fun indent ↦ xs.flatMap (·.lines indent) := by
  intro indent hi
  obtain ⟨ps, htext, hhead, -, hrelaid⟩ := h.printed indent hi
  exact ⟨ps, htext, hhead, .of_relaid hP ht hp ho hrelaid hhead.ne_nil hhead.head, nofun⟩

theorem Reprints.typeset {q : Query} (hP : Lax P) (h : Reprints ts q) (ht : ∀ t ∈ ts, P t)
    (hp : Placed 0 ts) (ho : opensComment ts = false) : Typeset P [] q.lines := by
  intro indent hi
  obtain ⟨ps, htext, hhead, -, hrelaid⟩ := h.printed indent hi
  exact ⟨ps, htext, hhead, .of_relaid hP ht hp ho hrelaid hhead.ne_nil hhead.head, nofun⟩

variable {f g : Text → List Text}

theorem Typeset.append (hP : Lax P) (hf : Typeset P cs f) (hg : Typeset P ds g) :
    Typeset P (cs ++ ds) fun indent ↦ f indent ++ g indent := by
  intro indent hi
  obtain ⟨ps, ptext, phead, pblock, pholds⟩ := hf indent hi
  obtain ⟨us, utext, uhead, ublock, uholds⟩ := hg indent hi
  have hne : ∀ {ls : List Text} {ps : List Token}, Text.join ['\n'] ls = indent ++ textOf ps →
      Headed ps → ls ≠ [] := by
    rintro ls ps h hp rfl
    exact hp.textOf_ne_nil (List.append_eq_nil_iff.1 h.symm).2
  refine ⟨ps ++ newLine indent :: us, ?_, phead.append _,
    pblock.append hP ublock uhead.ahead hi.isGap, fun c hc ↦ ?_⟩
  · rw [join_append _ (hne ptext phead) (hne utext uhead), ptext, utext]
    simp [newLine]
  · rcases List.mem_append.1 hc with hc | hc
    · exact (pholds c hc).trans (List.prefix_append _ _).isInfix
    · exact (uholds c hc).trans ⟨ps ++ [newLine indent], [], by simp⟩

/-- The cells of a condition with further predicates. -/
def conjoinedCells (cells : List Cell) : List (List Token) → List Cell
  | [] => cells
  | c :: cs => cells ++ ⟨if cells = [] then c else linked c, 0⟩ :: cs.map fun c ↦ ⟨linked c, 0⟩

theorem IsCondition.good_linked (hP : Lax P) (h : IsCondition P c) : Good (linked c) :=
  (h.isBlock_linked hP).good (by simp [linked, Token.and])

theorem conjoinedCells_nil (c : List Token) (cs : List (List Token)) :
    conjoinedCells [] (c :: cs) = ⟨c, 0⟩ :: cs.map fun c ↦ ⟨linked c, 0⟩ := rfl

theorem conjoinedCells_of_ne_nil {cells : List Cell} (h : cells ≠ []) (cs : List (List Token)) :
    conjoinedCells cells cs = cells ++ cs.map fun c ↦ ⟨linked c, 0⟩ := by
  cases cs with
  | nil => simp [conjoinedCells]
  | cons c cs => simp [conjoinedCells, h]

theorem trail_append (gap : Token) (x y : List Cell) :
    trail gap (x ++ y) = trail gap x ++ trail gap y := List.flatMap_append

/-- Predicates that are put into a condition are printed as they are. -/
theorem conjoinedCells_spec {items : List Text} {cells : List Cell} (hP : Lax P) (hne : cs ≠ [])
    (hcs : ∀ c ∈ cs, IsCondition P c) (hg : ∀ x ∈ cells, Good x.its)
    (hs : Shape (.slot .condition) items 0 cells) :
    (∀ x ∈ conjoinedCells cells cs, Good x.its) ∧
      Shape (.slot .condition) (Filter.conjoin items (cs.map textOf)) 0
          (conjoinedCells cells cs) := by
  have hp : (Clause.slot .condition).isPredicate = true := rfl
  have hlinks : ∀ {cs : List (List Token)}, (∀ c ∈ cs, IsCondition P c) →
      ∀ x ∈ cs.map (fun c ↦ (⟨linked c, 0⟩ : Cell)), Good x.its :=
        fun h ↦ List.forall_mem_map.2 fun c hc ↦ (h c hc).good_linked hP
  have htext : ∀ cs : List (List Token),
    (cs.map fun c ↦ (⟨linked c, 0⟩ : Cell)).flatMap Cell.items =
      (cs.map textOf).map ("AND ".toList ++ ·) := by
    intro cs
    induction cs with
    | nil => rfl
    | cons c cs ih => rw [List.map_cons, List.flatMap_cons, ih]; rfl
  rw [Shape, if_pos hp, List.replicate_zero, List.nil_append] at hs
  rw [Shape, if_pos hp, List.replicate_zero, List.nil_append, hs.1]
  by_cases hcells : cells = []
  · subst hcells
    obtain ⟨c, cs, rfl⟩ := List.exists_cons_of_ne_nil hne
    obtain ⟨hc, hcs⟩ := List.forall_mem_cons.1 hcs
    rw [conjoinedCells_nil]
    refine ⟨List.forall_mem_cons.2 ⟨hc.good hc.marker, hlinks hcs⟩, ?_, fun h ↦ absurd rfl h⟩
    rw [List.flatMap_cons, htext]
    exact Filter.conjoin_nil _ _
  · rw [conjoinedCells_of_ne_nil hcells]
    refine ⟨List.forall_mem_append.2 ⟨hg, hlinks hcs⟩, ?_, fun h ↦ absurd rfl h⟩
    obtain ⟨x, xs, rfl⟩ := List.exists_cons_of_ne_nil hcells
    rw [List.flatMap_append, htext]
    exact Filter.conjoin_of_ne_nil (by simp [Cell.items]) _

/-- A condition that further predicates were put into. -/
theorem typeset_conjoined {items : List Text} {cells : List Cell} (hP : Lax P) (hne : cs ≠ [])
    (hcs : ∀ c ∈ cs, IsCondition P c)
    (hb : ∀ gap, IsGap gap → IsBlock P (Clause.title (.slot .condition) :: spread gap 0 cells))
    (hg : ∀ x ∈ cells, Good x.its) (hs : Shape (.slot .condition) items 0 cells) :
    Typeset P cs fun indent ↦ Query.listLines indent (.slot .condition)
      (Filter.conjoin items (cs.map textOf)) := by
  intro indent hi
  obtain ⟨hgood, hshape⟩ := conjoinedCells_spec hP hne hcs hg hs
  have hgap := hi.itemGap (conjoinedCells cells cs)
  have hlexed : Lexed [Clause.title (.slot .condition)] :=
    (title_spec (.slot .condition) (by decide)).1
  refine ⟨_, Query.join_listLines (by decide) hi hgood hshape, .cons rfl ⟨_, hlexed⟩ _, ?_⟩
  generalize itemGap indent (conjoinedCells cells cs) = gap at hgap ⊢
  by_cases hcells : cells = []
  · subst hcells
    obtain ⟨c, cs, rfl⟩ := List.exists_cons_of_ne_nil hne
    obtain ⟨hc, hcs⟩ := List.forall_mem_cons.1 hcs
    have htokens : Clause.title (.slot .condition) :: spread gap 0 (conjoinedCells [] (c :: cs)) =
        (Clause.title (.slot .condition) :: gap :: c) ++
            trail gap (cs.map fun c ↦ ⟨linked c, 0⟩) := by
      simp [conjoinedCells_nil, spread, trail, Cell.tokens]
    rw [htokens]
    refine ⟨(hc.cons_gap hP hlexed (hP.of_word hlexed rfl) hgap ⟨by decide, by decide⟩ fun _ ↦ by
      decide +kernel).links hP hcs hgap, List.forall_mem_cons.2 ⟨?_, fun d hd ↦ ?_⟩⟩
    · exact ⟨[Clause.title (.slot .condition), gap], trail gap (cs.map fun c ↦ ⟨linked c, 0⟩),
        by simp⟩
    · exact (isInfix_of_mem_links hd gap).trans (List.suffix_append _ _).isInfix
  · have htokens : Clause.title (.slot .condition) :: spread gap 0 (conjoinedCells cells cs) =
        (Clause.title (.slot .condition) :: spread gap 0 cells) ++
            trail gap (cs.map fun c ↦ ⟨linked c, 0⟩) := by
      simp [conjoinedCells_of_ne_nil hcells, spread, trail_append]
    rw [htokens]
    exact ⟨(hb gap hgap).links hP hcs hgap,
      fun d hd ↦ (isInfix_of_mem_links hd gap).trans (List.suffix_append _ _).isInfix⟩

/-- `FROM` and a statement between parentheses. -/
theorem IsBlock.parenthesized {o e : Token} {us : List Token} (hP : Lax P) (h : IsBlock P ps)
    (ho : o.isOpenParen = true) (he : e.isCloseParen = true) (hlo : Lexed [o]) (hle : Lexed [e])
    (hus : us = [] ∨ ∃ b, us = space :: b ∧ IsBlock P b) (hi : IsIndent indent) :
    IsBlock P (Clause.source.title :: space :: (parenthesizedTokens indent o e ps ++ us)) := by
  obtain ⟨hok, hot, -, how⟩ := isBlank_of_isOpenParen ho
  obtain ⟨hek, het, heb, hew⟩ := isBlank_of_isCloseParen he
  have hclose : IsBlock P (e :: us) := by
    rcases hus with rfl | ⟨b, rfl, hb⟩
    · exact .singleton hle (hP _ (by simp [het])) (by simp [hek])
    · exact hb.cons_gap hP hle (hP _ (by simp [het])) isGap_space (by simp [hek]) (by simp [hew])
  have hbody := (h.append hP hclose (ahead_symbol heb hew us) hi.isGap).cons_gap hP hlo
    (hP _ (by simp [hot])) hi.tab.isGap (by simp [hok]) (by simp [how])
  have htitle := hbody.cons_gap hP (title_spec .source (by decide)).1 (hP _ (by decide)) isGap_space
    ⟨by decide, by decide⟩ fun _ ↦ by decide +kernel
  simpa [parenthesizedTokens] using htitle

/-- A subquery in `FROM` and its aliases. -/
theorem typeset_subquery {r : Query} {us : List Token} {aliases : List Text} {cells : List Cell}
    (hP : Lax P) (hr : Typeset P cs r.lines) (hu : ∀ t ∈ us, P t)
    (hlist : Listed (.slot .aliases) false us aliases 0 cells) (hle : cells.length ≤ 1)
    (hp : Placed 0 us) (ho : opensComment us = false) :
    Typeset P cs fun indent ↦ [Query.subqueryLine indent r aliases] := by
  intro indent hi
  obtain ⟨ps, htext, -, hblock, hholds⟩ := hr (indent ++ Query.tab) hi.tab
  let o : Token := ⟨.opening, "("⟩
  let e : Token := ⟨.closing, ")"⟩
  have hlo : Lexed [o] := by decide
  have hlc : Lexed [e] := by decide
  have hspread : spread space 0 cells = [] ∨ ∃ b, spread space 0 cells = space :: b ∧
      IsBlock P b := by
    rcases cells with _ | ⟨x, cells⟩
    · exact .inl rfl
    · have hx := hlist.good x List.mem_cons_self
      have hlaid : laid space 0 (x :: cells) = x.its ++ spread space x.commas cells :=
        laid_cons isGap_space hx x.commas cells
      obtain ⟨t, ts, ht⟩ := List.exists_cons_of_ne_nil hx.ne
      refine .inr ⟨_, spread_zero_cons isGap_space hx cells,
        .of_relaid hP hu hp ho (fun he ↦ (hlist.relaid _ isGap_space he).1) ?_ ?_⟩
      · simp [hlaid, ht]
      · rw [hlaid, ht]
        exact fun u hu ↦ hx.head u (by rw [ht]; exact hu)
  have hparen := hblock.parenthesized (o := o) (e := e) hP rfl rfl hlo hlc (.inl rfl) hi
  rw [List.append_nil] at hparen
  refine ⟨_, subqueryLine_eq (o := o)
    (e := e) rfl rfl htext hlist hle hi hparen.lexed fun t ht ↦ hparen.comment t (by simp [ht]),
    .cons rfl ⟨_, (title_spec .source (by decide)).1⟩ _,
      hblock.parenthesized hP rfl rfl hlo hlc hspread hi, fun c hc ↦ (hholds c hc).trans ?_⟩
  exact ⟨[Clause.source.title, space, o, newLine (indent ++ Query.tab)],
    newLine indent :: e :: spread space 0 cells,
    by simp [parenthesizedTokens]⟩

end QueryTemplate
