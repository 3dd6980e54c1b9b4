import QueryTemplate.Proofs.Query.PrintTally
namespace QueryTemplate

open Token Grammar Fragment Draft

variable {ts b : List Token} {q r p : Query} {k : Nat}

theorem closes_false (n : Int) (ts : List Token) : Closes false n ts := nofun

/-- Arguments that are expressions amount to what the query does that they were read as. -/
theorem sum_of_isBareRoot (lines : Bool) (w : Query → Int) (h : q.isBareRoot = true) :
    amounts lines w (q.root.map .text) = q.sum lines w ∧ ∀ p, p ∈ q.root.map Piece.text ↔ p ∈ q.pieces := by
  have e : q = { root := q.root } := by simpa [Query.isBareRoot] using h
  have hp : q.pieces = q.root.map .text := by
    rw [e]
    simp [Query.pieces, Query.parts, Slots.texts]
  have hj : q.joins = [] := by rw [e]
  rw [Query.sum, hp, hj]
  exact ⟨(Int.add_zero _).symm, fun _ ↦ Iff.rfl⟩

theorem Readable.membershipText (h : Readable q) : tally false (membershipText q) = some (q.sum false printAmount, false) := by
  have hloose : ∀ x : Text, tally false (' ' :: x) = tally false x := fun x ↦ tally_loose (by decide)
  rw [QueryTemplate.membershipText]
  split
  · rename_i hb
    obtain ⟨hs, hp⟩ := sum_of_isBareRoot false printAmount hb
    have hroot : Adds q.root (q.sum false printAmount) :=
      (adds_of_fits fun x hx ↦ h.pieces _ ((hp _).1 (List.mem_map_of_mem hx))).congr ((amounts_texts _).symm.trans hs)
    exact (hloose _).trans (tally_enclosed (hroot.join isSeparator_comma))
  · have ht : IsIndent Query.tab := by rw [IsIndent]; decide
    have hl := (h.lines ht).join isSeparator_newline
    have hn := tally_add hl isSeparator_newline.tally (.inr (.inl isSeparator_newline.delimited))
    rw [Int.add_zero] at hn
    have hx : tally false ('\n' :: (q.printAt Query.tab ++ ['\n'])) = some (q.sum false printAmount, false) :=
      (tally_loose (by decide)).trans hn
    have e : (" (\n" ++ q.printAt Query.tab ++ "\n)" : Text) = ' ' :: ('(' :: ('\n' :: (q.printAt Query.tab ++ ['\n'])) ++ ")") := by
      simp
    rw [e, hloose]
    exact tally_enclosed hx

/-- What tokens without line comments are read as opens and closes as many parentheses as they do. -/
theorem readable_parse (h : Legible false b) (hq : parseTokens [] b {} = .ok q) :
    Readable q ∧ q.sum false printAmount = weigh b := by
  induction hn : b.length using Nat.strongRecOn generalizing b q with
  | ind n ih =>
    have hin : Inner false false printAmount IsPrinted b.length := by
      refine ⟨fun {b q} hl hb _ hq ↦ ?_, fun {b q} hl hb _ hq ↦ ?_, fun {b q} hl hb hbal hq ↦ ?_⟩
      · obtain ⟨h₁, h₂⟩ := ih _ (hn ▸ hl) hb hq rfl
        have hp : PrintsAs q (q.sum false printAmount) := fun _ hi ↦ h₁.lines hi
        exact ⟨⟨_, hp⟩, hp.amount.trans h₂⟩
      · obtain ⟨h₁, h₂⟩ := ih _ (hn ▸ hl) hb hq rfl
        rw [CallArgs.ofQuery]
        split
        · obtain ⟨hs, hp⟩ := sum_of_isBareRoot false printAmount ‹_›
          exact ⟨fun p hm ↦ h₁.pieces p ((hp p).1 hm), hs.trans h₂⟩
        · have hp : PrintsAs q (q.sum false printAmount) := fun _ hi ↦ h₁.lines hi
          have hw : amounts false printAmount (CallArgs.pieces (.statement q)) = printAmount q := by
            simp [CallArgs.pieces, Piece.amount]
          exact ⟨List.forall_mem_singleton.2 ⟨_, hp⟩, hw.trans (hp.amount.trans h₂)⟩
      · obtain ⟨h₁, h₂⟩ := ih _ (hn ▸ hl) hb hq rfl
        rw [h₁.membershipText, h₂, weigh_of_balanced hbal]
    obtain ⟨h₁, h₂⟩ := sound_parse hin (Nat.le_refl _) sound_empty h (closes_false _ _) hq (by simp)
    refine ⟨h₁, h₂.trans ?_⟩
    exact Int.zero_add _

/-- A query that is read of text without line comments is printed as text with as many more opening than closing
parentheses as it was read of. -/
theorem print_conserves {s : Text} (hs : tokens? s = .ok ts) (hc : opensComment ts = false)
    (hl : ∀ t ∈ ts, t.isLineComment = false) (h : parse s = .ok q) : ∃ us, tokens? q.print = .ok us ∧
      us.countP isOpenParen + ts.countP isCloseParen = ts.countP isOpenParen + us.countP isCloseParen := by
  obtain ⟨rfl, hlex⟩ := tokens?_eq_ok_iff.1 hs
  rw [parse_textOf hlex] at h
  obtain ⟨h₁, h₂⟩ := readable_parse ⟨hlex, hc, fun _ ↦ hl, quietMembers_of_forall hl⟩ h
  have hp : PrintsAs q (q.sum false printAmount) := fun _ hi ↦ h₁.lines hi
  have ht : tally false q.print = some (_, false) := hp.printAt (by simp [IsIndent])
  obtain ⟨us, hus, hw⟩ := tokens?_of_tally ht
  rw [h₂, weigh_eq, weigh_eq] at hw
  exact ⟨us, hus, by omega⟩

/-- A query within another one, or the query itself. -/
inductive Query.Within : Query → Query → Prop
  | refl (q : Query) : Within q q
  | inside {q p r : Query} (hp : .query p ∈ q.pieces) (h : Within r p) : Within r q

/-- The texts of a query at one level: items, sources, arguments, predicates and columns. -/
def Query.fragments (q : Query) : List Text :=
  q.pieces.filterMap (fun
    | .text x => some x
    | .query _ => none) ++ q.joins.flatMap Join.columns

/-- In each join of a query and of those within it the aliases have as many opening as closing parentheses. -/
def Query.AliasesClose (q : Query) : Prop := ∀ r : Query, r.Within q → ∀ j ∈ r.joins, j.AliasesClose

/-- All texts of a query and of those within it close their own parentheses. -/
def Query.TextsClose (q : Query) : Prop := ∀ r : Query, r.Within q → ∀ x ∈ r.fragments, ∃ b, tally true x = some (0, b)

/-- What holds of a query in whose joins the aliases close their parentheses. -/
def Query.Closed (q : Query) : Prop := q.AliasesClose → q.TextsClose

theorem Query.Sound.textsClose {w : Query → Int} (h : q.Sound true true w Query.Closed) (ha : q.AliasesClose) : q.TextsClose := by
  intro r hr x hx
  cases hr with
  | refl =>
    rcases List.mem_append.1 hx with hx | hx
    · obtain ⟨p, hp, e⟩ := List.mem_filterMap.1 hx
      cases p with
      | query => cases e
      | text y =>
        obtain rfl := Option.some.inj e
        obtain ⟨n, hn, ht⟩ := h.pieces _ hp
        rw [hn rfl] at ht
        exact ⟨_, ht⟩
    · obtain ⟨j, hj, hx⟩ := List.mem_flatMap.1 hx
      exact (h.joins j hj).columns x hx
  | @inside _ p _ hp hr => exact h.pieces _ hp (fun r hr ↦ ha r (.inside hp hr)) r hr x hx

theorem inner_closed (k : Nat) : Inner true true (fun _ ↦ 0) Query.Closed k := by
  induction k using Nat.strongRecOn with
  | ind k ih =>
    have sound : ∀ {b q}, b.length < k → Legible true b → Closes true 0 b → parseTokens [] b {} = .ok q →
        (∀ j ∈ q.joins, j.AliasesClose) → q.Sound true true (fun _ ↦ 0) Query.Closed ∧ q.sum true (fun _ ↦ 0) = weigh b := by
      intro b q hl hb hc hq hj
      obtain ⟨h₁, h₂⟩ := sound_parse (ih _ hl) (Nat.le_refl _) sound_empty hb hc hq fun j hm _ ↦ hj j hm
      exact ⟨h₁, h₂.trans (Int.zero_add _)⟩
    have closed : ∀ {b q}, b.length < k → Legible true b → Closes true 0 b → parseTokens [] b {} = .ok q → q.Closed :=
      fun hl hb hc hq ha ↦ (sound hl hb hc hq (ha _ (.refl _))).1.textsClose ha
    refine ⟨fun hl hb hc hq ↦ ⟨closed hl hb hc hq, (hc.weigh_allowed rfl).symm⟩, fun {b q} hl hb hc hq ↦ ?_,
      fun hl hb hbal hq ↦ ?_⟩
    · rw [CallArgs.ofQuery]
      split
      · rename_i hr
        have e : q = { root := q.root } := by simpa [Query.isBareRoot] using hr
        obtain ⟨h₁, h₂⟩ := sound hl hb hc hq (by rw [e]; exact List.forall_mem_nil _)
        obtain ⟨hs, hp⟩ := sum_of_isBareRoot true (fun _ ↦ 0) hr
        exact ⟨fun p hm ↦ h₁.pieces p ((hp p).1 hm), hs.trans h₂⟩
      · have hw : amounts true (fun _ ↦ 0) (CallArgs.pieces (.statement q)) = 0 := by simp [CallArgs.pieces, Piece.amount]
        exact ⟨List.forall_mem_singleton.2 (closed hl hb hc hq), hw.trans (hc.weigh_allowed rfl).symm⟩
    · obtain ⟨h₁, h₂⟩ := readable_parse hb hq
      rw [weigh_of_balanced hbal] at h₂
      exact tally_lines (h₂ ▸ h₁.membershipText)

/-- A query whose parentheses are balanced is taken apart into texts whose parentheses are, if none opens after a point, no
line comment stands in those after `IN`, and the aliases of joins close theirs. -/
theorem fragments_balanced {s : Text} (hs : tokens? s = .ok ts) (hb : Balanced ts) (hc : opensComment ts = false)
    (hp : pointFree ts = true) (hm : quietMembers ts = true) (h : parse s = .ok q) (ha : q.AliasesClose) (hr : r.Within q) :
    ∀ x ∈ r.fragments, ∃ us, tokens? x = .ok us ∧ us.countP isOpenParen = us.countP isCloseParen := by
  obtain ⟨rfl, hl⟩ := tokens?_eq_ok_iff.1 hs
  rw [parse_textOf hl] at h
  have hcl : Closes true 0 ts := fun _ ↦ ⟨hp, 0, rfl, hb⟩
  obtain ⟨hq, -⟩ := (inner_closed (ts.length + 1)).query (Nat.lt_succ_self _) ⟨hl, hc, nofun, hm⟩ hcl h
  intro x hx
  obtain ⟨b, hb⟩ := hq ha r hr x hx
  obtain ⟨us, hus, hw⟩ := tokens?_of_tally hb
  rw [weigh_eq] at hw
  exact ⟨us, hus, by omega⟩

/-- A query with another one in it, and with parentheses among the aliases of a join. -/
def aliasedQuery : Query where
  slots := { select := some ["a", "-- (\nf(b)"], condition := some ["a IN (\n    SELECT d\n)"] }
  source := some (.subquery { slots := { select := some ["g(c)"] }, source := some (.table ["t"]) })
  joins := [{ kind := "join", source := .table ["v"], aliases := ["AS", "x", "(", "y", ")"], predicates := ["x.y = f(a)"] }]

theorem fragments_balanced_aliased :
    parse "SELECT a, -- (\nf(b) FROM (SELECT g(c) FROM t) JOIN v AS x (y) ON x.y = f(a) WHERE a IN (SELECT d)" = .ok aliasedQuery ∧
      ∀ r : Query, r.Within aliasedQuery →
        ∀ x ∈ r.fragments, ∃ us, tokens? x = .ok us ∧ us.countP isOpenParen = us.countP isCloseParen := by
  let s : Text := "SELECT a, -- (\nf(b) FROM (SELECT g(c) FROM t) JOIN v AS x (y) ON x.y = f(a) WHERE a IN (SELECT d)"
  have hq : parse s = .ok aliasedQuery := toOption_eq_some.1 (by decide +kernel)
  have hts : (scan s).rest = [] ∧ Balanced (scan s).tokens ∧ opensComment (scan s).tokens = false ∧
      pointFree (scan s).tokens = true ∧ quietMembers (scan s).tokens = true := by decide +kernel
  obtain ⟨hrest, hb, hc, hp, hm⟩ := hts
  have hs : tokens? s = .ok (scan s).tokens := by simp [tokens?, atEnd, hrest]
  have ha : aliasedQuery.AliasesClose := by
    intro r hr
    cases hr with
    | refl => decide
    | @inside _ p _ hp hr =>
      have hp : Piece.query p ∈ [Piece.text "a", .text "-- (\nf(b)", .text "a IN (\n    SELECT d\n)",
        .query { slots := { select := some ["g(c)"] }, source := some (.table ["t"]) }, .text "v", .text "x.y = f(a)"] := hp
      obtain rfl : p = { slots := { select := some ["g(c)"] }, source := some (.table ["t"]) } := by simpa using hp
      cases hr with
      | refl => decide
      | @inside _ p _ hp hr =>
        have hp : Piece.query p ∈ [Piece.text "g(c)", .text "t"] := hp
        simp at hp
  exact ⟨hq, fun r hr ↦ fragments_balanced hs hb hc hp hm hq ha hr⟩

end QueryTemplate
