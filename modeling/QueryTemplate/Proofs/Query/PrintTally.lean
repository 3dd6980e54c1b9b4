import QueryTemplate.Proofs.Query.ConserveStep
import QueryTemplate.Proofs.Query.CellText
import QueryTemplate.Proofs.Token.Title
namespace QueryTemplate

open Token Grammar Fragment

variable {x y sep indent : Text} {xs ys : List Text} {m n k : Int} {b : Bool}

/-- Texts of code without line comments that together open `n` parentheses more than they close. -/
structure Adds (xs : List Text) (n : Int) : Prop where
  code : ∀ x ∈ xs, ∃ m, tally false x = some (m, false)
  sum : (xs.map (amount false)).sum = n

namespace Adds

theorem nil : Adds [] 0 := ⟨nofun, rfl⟩

theorem singleton (h : tally false x = some (n, false)) : Adds [x] n :=
  ⟨List.forall_mem_singleton.2 ⟨n, h⟩, by simp [amount_of_tally h]⟩

theorem append (hx : Adds xs m) (hy : Adds ys n) : Adds (xs ++ ys) (m + n) :=
  ⟨List.forall_mem_append.2 ⟨hx.code, hy.code⟩,
    by rw [List.map_append, List.sum_append, hx.sum, hy.sum]⟩

theorem cons (hx : tally false x = some (m, false)) (hy : Adds xs n) : Adds (x :: xs) (m + n) :=
  (singleton hx).append hy

/-- A text and those after it. -/
theorem uncons (h : Adds (x :: xs) n) : ∃ m, tally false x = some (m, false) ∧ Adds xs (n - m) := by
  obtain ⟨⟨m, hm⟩, hxs⟩ := List.forall_mem_cons.1 h.code
  refine ⟨m, hm, hxs, ?_⟩
  have hs := h.sum
  rw [List.map_cons, List.sum_cons, amount_of_tally hm] at hs
  omega

theorem congr (h : Adds xs m) (e : m = n) : Adds xs n := e ▸ h

end Adds

theorem tally_code_trimEnd (h : tally false x = some (n, false)) :
    tally false (Text.trimEnd x) = some (n, false) := by
  obtain ⟨b, hb⟩ := tally_trimEnd h
  rwa [tally_code hb] at hb

/-- A text that is read without line comments ends in none. -/
theorem endsInLineComment_of_tally (h : tally false x = some (n, b)) :
    endsInLineComment x = false := by
  obtain ⟨ts, hs, -, hl⟩ := scan_of_tally h
  rw [endsInLineComment, hs]
  cases e : lastToken? ts with
  | none => rfl
  | some p => exact hl rfl _ (mem_of_lastToken? e)

theorem IsIndent.tally (hi : IsIndent indent) (x : Text) :
    tally false (indent ++ x) = QueryTemplate.tally false x :=
  tally_loose_append fun c hc ↦ isLoose_of_isBlank (hi c hc)

/-- What is put between texts: it starts with a delimiter and ends in a space. -/
structure IsSeparator (sep : Text) : Prop where
  tally : tally false sep = some (0, false)
  ne_nil : sep ≠ []
  delimited : Delimited sep
  space : ∀ c ∈ sep.getLast?, Text.isSpace c = true

theorem tally_separated (hs : IsSeparator sep) (hx : tally false x = some (m, false))
    (hy : tally false y = some (n, false)) :
    tally false (x ++ sep ++ y) = some (m + n, false) := by
  have h₁ := tally_add hx hs.tally (.inr (.inl hs.delimited))
  have h₂ := tally_add h₁ hy (.inr
    (.inr ⟨sep.getLast hs.ne_nil, ?_, .inl (hs.space _ (List.getLast?_eq_some_getLast hs.ne_nil))⟩))
  · rwa [Int.add_zero] at h₂
  · rw [List.getLast?_append, List.getLast?_eq_some_getLast hs.ne_nil]
    rfl

theorem isSeparator_newline : IsSeparator ['\n'] :=
  ⟨(tally_loose (by decide)).trans tally_nil, by simp, by simp [Delimited]; decide, by simp; decide⟩

theorem isSeparator_comma : IsSeparator ", " :=
  ⟨(tally_loose (by decide)).trans ((tally_loose (by decide)).trans tally_nil),
    by decide, by simp [Delimited]; decide, by
    simp; decide⟩

theorem isSeparator_space : IsSeparator [' '] :=
  ⟨(tally_loose (by decide)).trans tally_nil, by simp, by simp [Delimited]; decide, by simp; decide⟩

theorem Adds.join (h : Adds xs n) (hs : IsSeparator sep) :
    tally false (Text.join sep xs) = some (n, false) := by
  induction xs generalizing n with
  | nil => rw [← h.sum]; exact tally_nil
  | cons x xs ih =>
    obtain ⟨m, hm, hxs⟩ := h.uncons
    cases xs with
    | nil =>
      have e : 0 = n - m := hxs.sum
      rw [Text.join, hm, show m = n by omega]
    | cons y xs =>
      rw [Text.join, tally_separated hs hm (ih hxs), show m + (n - m) = n by omega]

theorem tally_glue (hx : tally false x = some (m, false)) (hy : tally false y = some (n, false)) :
    tally false (Query.glue x y) = some (m + n, false) := by
  have ht := tally_code_trimEnd hy
  rw [Query.glue]
  split
  · rename_i e
    rw [e, tally_nil] at ht
    obtain ⟨rfl, -⟩ := Prod.mk.inj (Option.some.inj ht)
    rw [hx, Int.add_zero]
  · rw [if_neg (by simp [endsInLineComment_of_tally hx])]
    have h := tally_separated isSeparator_space hx ht
    rwa [List.append_assoc] at h

theorem foldl_glue (hx : tally false x = some (m, false)) (h : Adds xs n) :
    tally false (xs.foldl Query.glue x) = some (m + n, false) := by
  induction xs generalizing x m n with
  | nil =>
    rw [← h.sum]
    exact hx.trans (by simp)
  | cons y xs ih =>
    obtain ⟨k, hk, hxs⟩ := h.uncons
    rw [List.foldl_cons, ih (tally_glue hx hk) hxs, show m + k + (n - k) = m + n by omega]

/-- What separates items: nothing or a comma. -/
def IsMark (sep : Text) : Prop := sep = [] ∨ sep = [',']

theorem tally_withSeparator (hs : IsMark sep) (hx : tally false x = some (n, false)) :
    tally false (Query.withSeparator sep x) = some (n, false) := by
  have ht := tally_code_trimEnd hx
  obtain ⟨ts, hts, -, hl⟩ := scan_of_tally ht
  have e : Query.withSeparator sep x = Text.trimEnd x ++ sep := by
    simp only [Query.withSeparator, hts]
    cases e : lastToken? ts with
    | none => rfl
    | some p => simp only [hl rfl p.2 (mem_of_lastToken? e), Bool.false_eq_true, if_false]
  rw [e]
  rcases hs with rfl | rfl
  · rwa [List.append_nil]
  · have h := tally_add ht (y := [',']) (n := 0)
      (b := false) ((tally_loose (by decide)).trans tally_nil)
      (.inr (.inl (by simp [Delimited]; decide)))
    rwa [Int.add_zero] at h

theorem Adds.foldMarkers (h : Adds xs n) : Adds (Query.foldMarkers xs) n := by
  have go : ∀ (xs : List Text) (x : Text) (n : Int), Adds (x :: xs) n →
      Adds (Query.foldMarkers.go x xs) n := by
    intro xs
    induction xs with
    | nil => exact fun _ _ h ↦ h
    | cons y xs ih =>
      intro x n h
      obtain ⟨m, hm, hxs⟩ := h.uncons
      rw [Query.foldMarkers.go]
      split
      · obtain ⟨k, hk, hxs⟩ := hxs.uncons
        have hk0 : k = 0 := by
          subst_vars
          have h0 : tally false Query.commaMarker = some (0, false) :=
            (tally_loose (by decide)).trans tally_nil
          exact (Prod.mk.inj (Option.some.inj (hk.symm.trans h0))).1
        rw [hk0, Int.sub_zero] at hxs
        exact ih _ _ ((hxs.cons (tally_withSeparator (.inr rfl) hm)).congr (by omega))
      · exact ((ih _ _ hxs).cons hm).congr (by omega)
  cases xs with
  | nil => exact h
  | cons x xs => exact go xs x n h

variable (hi : IsIndent indent)
include hi

theorem Adds.itemLines (h : Adds xs n) (hs : IsMark sep) :
    Adds (Query.itemLines indent sep xs) n := by
  have hline : ∀ {x m}, tally false x = some (m, false) →
      tally false (indent ++ Query.tab ++ x) = some (m, false) := by
    intro x m hx
    rwa [hi.tab.tally]
  induction xs generalizing n with
  | nil => exact h
  | cons x xs ih =>
    obtain ⟨m, hm, hxs⟩ := h.uncons
    cases xs with
    | nil =>
      have e : 0 = n - m := hxs.sum
      exact (Adds.singleton (hline (tally_code_trimEnd hm))).congr (by omega)
    | cons y xs =>
      exact ((ih hxs).cons (hline (tally_withSeparator hs hm))).congr (by omega)

theorem Adds.clauseLines {keyword : Text} (h : Adds xs n) (hs : IsMark sep)
    (hk : tally false keyword = some (0, false)) :
    Adds (Query.clauseLines indent keyword sep xs) n := by
  have hkey : tally false (indent ++ keyword) = some (0, false) := (hi.tally _).trans hk
  cases xs with
  | nil =>
    have e : 0 = n := h.sum
    exact (Adds.singleton hkey).congr e
  | cons x xs =>
    cases xs with
    | nil =>
      obtain ⟨m, hm, hxs⟩ := h.uncons
      have e : 0 = n - m := hxs.sum
      exact (Adds.singleton (tally_glue hkey hm)).congr (by omega)
    | cons y xs => exact ((Adds.itemLines hi h hs).cons hkey).congr (Int.zero_add n)

theorem Adds.slotLines {q : Slots} {s : Slot} (h : Adds ((q.get s).getD []) n) :
    Adds (Query.slotLines indent q s) n := by
  have hk : tally false (Text.upper s.name) = some (0, false) := by
    have hloose : ∀ c ∈ Text.upper s.name, isLoose c = true := by cases s <;> decide
    exact tally_of_loose hloose
  rw [Query.slotLines]
  cases hq : q.get s with
  | none =>
    rw [hq] at h
    exact h
  | some items =>
    rw [hq] at h
    dsimp only
    split
    · exact Adds.clauseLines hi (Adds.foldMarkers h) (.inl rfl) hk
    · exact Adds.clauseLines hi h (.inr rfl) hk

omit hi in
theorem tally_glueItems (hx : tally false x = some (m, false)) (h : Adds xs n) :
    tally false (Query.glueItems x xs) = some (m + n, false) := by
  induction xs generalizing x m n with
  | nil =>
    rw [← h.sum]
    exact hx.trans (by simp)
  | cons y xs ih =>
    obtain ⟨k, hk, hxs⟩ := h.uncons
    cases xs with
    | nil =>
      have e : 0 = n - k := hxs.sum
      rw [Query.glueItems, tally_glue hx hk, show m + k = m + n by omega]
    | cons z xs =>
      rw [Query.glueItems, ih (tally_glue hx (tally_withSeparator (.inr rfl) hk)) hxs,
        show m + k + (n - k) = m + n by omega]

omit hi in
/-- A text in parentheses after a name. -/
theorem tally_enclosed (hx : tally false x = some (n, false)) :
    tally false ('(' :: x ++ ")") = some (n, false) := by
  have hclose : tally false [')'] = some (-1, false) := by rw [tally_closing, tally_nil]; rfl
  have h := tally_add hx hclose (.inr (.inl (by simp [Delimited]; decide)))
  have e : ('(' :: x ++ ")" : Text) = '(' :: (x ++ [')']) := rfl
  rw [e, tally_opening, h, Option.map_some]
  exact congrArg some (Prod.ext (show 1 + (n + -1) = n by omega) rfl)

omit hi in
theorem parenthesized_eq (indent : Text) (xs : List Text) :
    Query.parenthesized indent xs =
      '(' :: ('\n' :: (Text.join ['\n'] xs ++ ['\n'] ++ indent)) ++ ")" := by
  simp [Query.parenthesized]

theorem tally_parenthesized_lines (h : Adds xs n) :
    tally false (Query.parenthesized indent xs) = some (n, false) := by
  have hj := h.join isSeparator_newline
  have hi' : tally false indent = some (0, false) := by
    have e := hi.tally []
    rwa [List.append_nil, tally_nil] at e
  have h₁ := tally_separated isSeparator_newline hj hi'
  have h₂ : tally false ('\n' :: (Text.join ['\n'] xs ++ ['\n'] ++ indent)) = some (n, false) :=
    (tally_loose (by decide)).trans (by rwa [Int.add_zero] at h₁)
  rw [parenthesized_eq]
  exact tally_enclosed h₂

omit hi in
theorem tally_joinTail {j : Join Query} (hx : tally false x = some (m, false))
    (ha : Adds j.aliases k) (hc : Adds j.columns 0) (hp : Adds j.predicates n) :
    tally false (Query.joinTail x j) = some (m + k + n, false) := by
  have h₁ := foldl_glue hx ha
  have hon : tally false "ON" = some (0, false) := tally_of_loose (by decide)
  have h₂ : tally false (if j.columns = [] then j.aliases.foldl Query.glue x
      else Query.glue (j.aliases.foldl Query.glue x) ("USING (" ++ Text.join ", " j.columns ++
          ")")) = some (m + k, false) := by
    split
    · exact h₁
    · have hu : tally false ("USING (" ++ Text.join ", " j.columns ++ ")") = some (0, false) := by
        exact (tally_loose_append (u := "USING ") (by decide)).trans
          (tally_enclosed (hc.join isSeparator_comma))
      rw [tally_glue h₁ hu, Int.add_zero]
  rw [Query.joinTail]
  split
  · rename_i e
    rw [e] at hp
    have e : 0 = n := hp.sum
    rw [h₂, ← e, Int.add_zero]
  · have h₃ := tally_glue h₂ hon
    rw [Int.add_zero] at h₃
    exact foldl_glue h₃ hp

/-- A query whose text opens `n` parentheses more than it closes, at each indentation. -/
def PrintsAs (q : Query) (n : Int) : Prop := ∀ indent, IsIndent indent → Adds (q.lines indent) n

omit hi in
theorem PrintsAs.printAt {q : Query} (h : PrintsAs q n) (hi : IsIndent indent) :
    tally false (q.printAt indent) = some (n, false) :=
  (h indent hi).join isSeparator_newline

/-- How many parentheses the text of a query opens, less those it closes. -/
def printAmount (q : Query) : Int := amount false q.print

omit hi in
theorem PrintsAs.amount {q : Query} (h : PrintsAs q n) : printAmount q = n :=
  amount_of_tally (h.printAt (by simp [IsIndent]))

/-- What a query is whose text has a tally. -/
def IsPrinted (q : Query) : Prop := ∃ n, PrintsAs q n

omit hi in
theorem IsPrinted.prints {q : Query} (h : IsPrinted q) : PrintsAs q (printAmount q) := by
  obtain ⟨n, h⟩ := h
  exact h.amount ▸ h

omit hi in
theorem adds_of_fits (h : ∀ x ∈ xs, Piece.Fits false (Allowed false) IsPrinted (.text x)) :
    Adds xs (xs.map (amount false)).sum :=
  ⟨fun x hx ↦ (h x hx).imp fun _ ↦ And.right, rfl⟩

/-- The parts of a query at one level that are read without line comments. -/
abbrev Readable (q : Query) : Prop := q.Sound false false printAmount IsPrinted

theorem adds_callLines {cs : List (Text × CallArgs Query)}
    (h : ∀ c ∈ cs, IsCall false printAmount c)
    (hp : ∀ p ∈ cs.flatMap (·.2.pieces), p.Fits false (Allowed false) IsPrinted) :
    Adds (Query.lines.callLines indent cs)
      (amounts false printAmount (cs.flatMap (·.2.pieces))) := by
  induction cs with
  | nil => exact .nil
  | cons c cs ih =>
    obtain ⟨hc, hcs⟩ := List.forall_mem_cons.1 h
    rw [List.flatMap_cons] at hp
    obtain ⟨hp, hps⟩ := List.forall_mem_append.1 hp
    obtain ⟨t, ht, hx, hk⟩ := hc.name
    have hname : tally false c.1 = some (0, false) := by
      rw [← ht, tally_lexical hx (not_isLineComment (by simp [hk])),
        weight_of_kind (by simp [hk]) (by simp [hk])]
    -- a name and parentheses after it
    have line : ∀ {x : Text} {n : Int}, tally false ('(' :: x) = some (n, false) →
        tally false (indent ++ (c.1 ++ '(' :: x)) = some (n, false) := by
      intro x n hx
      have e := tally_add hname hx (.inr (.inl (by simp [Delimited]; decide)))
      rwa [hi.tally, ← Int.zero_add n]
    rw [List.flatMap_cons, amounts_append]
    obtain ⟨name, args⟩ := c
    cases args with
    | list xs =>
      have hxs : Adds xs (xs.map (amount false)).sum :=
        adds_of_fits fun x hx ↦ hp _ (List.mem_map_of_mem hx)
      have hl := line (tally_enclosed (hxs.join isSeparator_comma))
      have e : amounts false printAmount (CallArgs.pieces (.list xs)) =
          (xs.map (amount false)).sum := amounts_texts xs
      rw [Query.lines.callLines, e]
      refine Adds.cons ?_ (ih hcs hps)
      simpa using hl
    | statement q =>
      have hq : IsPrinted q := hp (.query q) (by simp [CallArgs.pieces])
      have hpar := tally_parenthesized_lines hi (hq.prints _ hi.tab)
      rw [parenthesized_eq] at hpar
      have hl := line hpar
      have e : amounts false printAmount (CallArgs.pieces (.statement q)) = printAmount q := by
        simp [CallArgs.pieces, Piece.amount]
      rw [Query.lines.callLines, e, parenthesized_eq]
      refine Adds.cons ?_ (ih hcs hps)
      simpa using hl

/-- A line that starts with the phrase of a join. -/
theorem tally_joinTitle {t : Token} (ht : Lexical t) (hk : t.kind = .join) :
    tally false (indent ++ Text.upper t.keyword) = some (0, false) := by
  obtain ⟨ts, hx⟩ := ht
  obtain ⟨hl, -⟩ := lexed_joinTitle hx hk
  have hloose : ∀ c ∈ Text.upper t.keyword, isLoose c = true := by
    intro c hc
    exact (hl.word_chars (hl.isWord_of_kind rfl) c hc).elim isLoose_of_isNameChar isLoose_of_isBlank
  exact (hi.tally _).trans (tally_of_loose hloose)

theorem adds_joinLines {js : List (Join Query)} (h : ∀ j ∈ js, j.Worded false)
    (hp : ∀ p ∈ js.flatMap Join.pieces, p.Fits false (Allowed false) IsPrinted) :
    Adds (Query.lines.joinLines indent js) (amounts false printAmount (js.flatMap Join.pieces) +
      aliasAmount false js) := by
  induction js with
  | nil => exact .nil
  | cons j js ih =>
    obtain ⟨hj, hjs⟩ := List.forall_mem_cons.1 h
    rw [List.flatMap_cons] at hp
    obtain ⟨hp, hps⟩ := List.forall_mem_append.1 hp
    obtain ⟨hsrc, hpred⟩ := List.forall_mem_append.1 hp
    have hal : Adds j.aliases (j.aliases.map (amount false)).sum := by
      refine ⟨fun x hx ↦ ?_, rfl⟩
      obtain ⟨t, rfl, ht, hl, -⟩ := hj.aliases x hx
      exact ⟨t.weight, tally_lexical ht (hl rfl)⟩
    have hcol : Adds j.columns 0 := by
      refine ⟨fun x hx ↦ ?_, ?_⟩
      · obtain ⟨b, hb⟩ := hj.columns x hx
        exact ⟨0, tally_code hb ▸ hb⟩
      · have hz : ∀ x ∈ j.columns, amount false x = 0 :=
          fun x hx ↦ (hj.columns x hx).elim fun _ ↦ amount_of_tally
        clear hj
        generalize j.columns = xs at hz
        induction xs with
        | nil => rfl
        | cons x xs ih =>
          obtain ⟨hx, hz⟩ := List.forall_mem_cons.1 hz
          rw [List.map_cons, List.sum_cons, hx, ih hz]
          rfl
    have hpr : Adds j.predicates (j.predicates.map (amount false)).sum :=
      adds_of_fits fun x hx ↦ hpred _ (List.mem_map_of_mem hx)
    have hphrase : tally false (indent ++ Text.upper j.kind) = some (0, false) := by
      obtain ⟨t, ht, hx, hk⟩ := hj.phrase
      rw [← ht]
      exact tally_joinTitle hi hx hk
    have e : amounts false printAmount ((j :: js).flatMap Join.pieces) + aliasAmount false
      (j :: js) =
        (0 + amounts false printAmount j.source.pieces + (j.aliases.map (amount false)).sum +
          (j.predicates.map (amount false)).sum) +
          (amounts false printAmount (js.flatMap Join.pieces) + aliasAmount false js) := by
      rw [List.flatMap_cons, amounts_append, Join.pieces, amounts_append, amounts_texts,
        aliasAmount, aliasAmount, List.map_cons, List.sum_cons]
      omega
    rw [e]
    obtain ⟨kind, source, aliases, columns, predicates⟩ := j
    cases source with
    | table xs =>
      have hxs : Adds xs (xs.map (amount false)).sum :=
        adds_of_fits fun x hx ↦ hsrc _ (List.mem_map_of_mem hx)
      rw [Query.lines.joinLines]
      refine Adds.cons (tally_joinTail ?_ hal hcol hpr) (ih hjs hps)
      rw [tally_glueItems hphrase hxs]
      exact congrArg (fun n ↦ some (0 + n, false)) (amounts_texts xs).symm
    | subquery q =>
      have hq : IsPrinted q := hsrc (.query q) (by simp [Source.pieces])
      have hw : amounts false printAmount (Source.pieces (.subquery q)) = printAmount q := by
        simp [Source.pieces, Piece.amount]
      rw [Query.lines.joinLines]
      refine Adds.cons (tally_joinTail ?_ hal hcol hpr) (ih hjs hps)
      rw [tally_glue hphrase (tally_parenthesized_lines hi (hq.prints _ hi.tab)), hw]

theorem adds_unionLines {qs : List Query} (h : ∀ q ∈ qs, IsPrinted q) :
    Adds (Query.lines.unionLines indent qs) (amounts false printAmount (qs.map .query)) := by
  induction qs with
  | nil => exact .nil
  | cons q qs ih =>
    obtain ⟨hq, hqs⟩ := List.forall_mem_cons.1 h
    have hkey : tally false (indent ++ "UNION ALL") = some (0, false) := by
      rw [hi.tally]
      exact tally_of_loose (by decide)
    rw [Query.lines.unionLines, List.map_cons, amounts_cons, Piece.amount]
    exact (((ih hqs).cons (hq.prints.printAt hi)).cons hkey).congr (Int.zero_add _)

omit hi in
theorem lines_parts (indent : Text) (q : Query) :
    q.lines indent = q.root.map (fun c ↦ indent ++ Text.trimEnd c) ++
    Query.lines.callLines indent q.calls ++ Query.slotLines indent q.slots .bindings ++
    (if q.slots.select = some [] then [] else Query.slotLines indent q.slots .select) ++
      q.clauseOf indent .source ++
    Query.lines.joinLines indent q.joins ++
    [.prewhere, .condition, .groupBy, .having, .orderBy,
      .limit].flatMap (Query.slotLines indent q.slots) ++
    q.branchLines indent ++ Query.slotLines indent q.slots .format := by
  obtain ⟨root, calls, slots, source, joins, unions⟩ := q
  rw [Query.lines.eq_def]
  rcases source with _ | _ | _ <;> cases unions <;> rfl

omit hi in
theorem adds_rootLines (hi : IsIndent indent) (h : Adds xs n) :
    Adds (xs.map fun c ↦ indent ++ Text.trimEnd c) n := by
  induction xs generalizing n with
  | nil => exact h
  | cons x xs ih =>
    obtain ⟨m, hm, hxs⟩ := h.uncons
    exact ((ih hxs).cons ((hi.tally _).trans (tally_code_trimEnd hm))).congr (by omega)

/-- The lines of `FROM`: with a subquery its aliases stand there. -/
theorem adds_sourceLines {q : Query}
    (hs : ∀ p ∈ (q.source.map Source.pieces).getD [], p.Fits false (Allowed false) IsPrinted)
    (ha : Adds (q.slots.aliases.getD []) n)
    (hq : q.slots.aliases ≠ none → ∃ r, q.source = some (.subquery r)) :
    Adds (q.clauseOf indent .source) (n +
      amounts false printAmount ((q.source.map Source.pieces).getD [])) := by
  have none_of : (∀ r, q.source ≠ some (.subquery r)) → n = 0 := by
    intro h
    have e : q.slots.aliases = none := by
      cases e : q.slots.aliases with
      | none => rfl
      | some xs =>
        obtain ⟨r, hr⟩ := hq (by simp [e])
        exact absurd hr (h r)
    rw [e] at ha
    exact ha.sum.symm
  cases e : q.source with
  | none =>
    rw [none_of (by simp [e])]
    simpa [Query.clauseOf, e] using Adds.nil
  | some s =>
    rw [e] at hs
    cases s with
    | table xs =>
      rw [none_of (by simp [e])]
      have hxs : Adds xs (xs.map (amount false)).sum :=
        adds_of_fits fun x hx ↦ hs _ (List.mem_map_of_mem hx)
      have hk : tally false "FROM" = some (0, false) := tally_of_loose (by decide)
      have hl : Adds (Query.clauseLines indent "FROM" [','] xs) _ :=
        Adds.clauseLines hi hxs (.inr rfl) hk
      have e' : q.clauseOf indent .source = Query.clauseLines indent "FROM" [','] xs := by
        simp only [Query.clauseOf, e]
        rfl
      rw [e']
      exact hl.congr ((amounts_texts xs).symm.trans (Int.zero_add _).symm)
    | subquery r =>
      have hr : IsPrinted r := hs (.query r) (by simp [Source.pieces])
      have hpar := tally_parenthesized_lines hi (hr.prints _ hi.tab)
      have hline : tally false (indent ++ "FROM " ++ Query.parenthesized indent
        (r.lines (indent ++ Query.tab))) =
          some (printAmount r, false) := by
        rw [List.append_assoc, hi.tally]
        exact (tally_loose_append (by decide)).trans hpar
      have e' : q.clauseOf indent .source =
          [Query.subqueryLine indent r (q.slots.aliases.getD [])] := by
        simp only [Query.clauseOf, e]
      rw [e']
      refine (Adds.singleton (foldl_glue hline ha)).congr ?_
      simp [Source.pieces, Piece.amount, Int.add_comm]

/-- The text of a query opens and closes as many parentheses as its parts. -/
theorem Readable.lines {q : Query} (h : Readable q) :
    Adds (q.lines indent) (q.sum false printAmount) := by
  obtain ⟨hslots, hrest⟩ := List.forall_mem_append.1 h.pieces
  obtain ⟨hroot, hrest⟩ := List.forall_mem_append.1 hrest
  obtain ⟨hsource, hparts⟩ := List.forall_mem_append.1 hrest
  obtain ⟨hcalls, hparts⟩ := List.forall_mem_append.1 hparts
  obtain ⟨hjoins, hunions⟩ := List.forall_mem_append.1 hparts
  have items : ∀ s, Adds ((q.slots.get s).getD [])
      (((q.slots.get s).getD []).map (amount false)).sum := fun s ↦
    adds_of_fits fun x hx ↦ hslots _
      (List.mem_map_of_mem ((q.slots.texts_get s).mem_iff.2 (List.mem_append_left _ hx)))
  have line : ∀ s, Adds (Query.slotLines indent q.slots s)
      (((q.slots.get s).getD []).map (amount false)).sum := fun s ↦
    Adds.slotLines hi (items s)
  have hr := adds_rootLines hi (adds_of_fits fun x hx ↦ hroot _ (List.mem_map_of_mem hx))
  have hs : Adds (if q.slots.select = some [] then [] else Query.slotLines indent q.slots .select)
      (((q.slots.get .select).getD []).map (amount false)).sum := by
    split
    · rename_i e
      have e : q.slots.get .select = some [] := e
      rw [e]
      exact .nil
    · exact line .select
  have hu : Adds (q.branchLines indent)
      (amounts false printAmount ((q.unions.getD []).map .query)) := by
    rw [Query.branchLines]
    cases e : q.unions with
    | none => exact .nil
    | some qs =>
      rw [e] at hunions
      exact adds_unionLines hi fun q hq ↦ hunions (.query q) (List.mem_map_of_mem hq)
  rw [lines_parts]
  refine ((((((((hr.append (adds_callLines hi h.calls hcalls)).append
    (line .bindings)).append hs).append
    (adds_sourceLines hi hsource (items .aliases) h.aliases)).append
      (adds_joinLines hi h.joins hjoins)).append
    (((line .prewhere).append ((line .condition).append
      ((line .groupBy).append ((line .having).append
      ((line .orderBy).append ((line .limit).append .nil)))))))).append hu).append
        (line .format)).congr ?_
  simp only [Query.sum, Query.pieces, Query.parts, Slots.texts, List.map_append, amounts_append,
    amounts_texts, Slots.get]
  omega

end QueryTemplate
