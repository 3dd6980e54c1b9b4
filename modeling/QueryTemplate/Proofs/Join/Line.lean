import QueryTemplate.Proofs.Join.Run
namespace QueryTemplate

open Token Fragment Grammar

/-- A text that is put into a line as it is, after a space. -/
structure Phrased (x : Text) : Prop where
  solid : Solid x
  ne_nil : x ≠ []
  tally : ∃ n, tally false x = some (n, false)

variable {x y line : Text} {xs : List Text} {m : Int} {ts : List Token} {t : Token}

theorem Phrased.of_lexical (h : Lexical t) (hb : t.kind ≠ .blank) (hc : t.kind ≠ .comment) :
    Phrased t.text :=
  ⟨h.solid hb hc, h.text_ne_nil, _, tally_lexical h (not_isLineComment hc)⟩

theorem adds_of_phrased (h : ∀ x ∈ xs, Phrased x) : Adds xs (xs.map (amount false)).sum :=
  ⟨fun x hx ↦ (h x hx).tally, rfl⟩

theorem glue_eq (hx : tally false x = some (m, false)) (hy : Text.trimEnd y = y) (hne : y ≠ []) :
    Query.glue x y = x ++ ' ' :: y := by
  simp only [Query.glue, hy, hne, endsInLineComment_of_tally hx, if_false, Bool.false_eq_true]

theorem foldl_glue_eq (hx : tally false line = some (m, false)) (h : ∀ x ∈ xs, Phrased x) :
    xs.foldl Query.glue line = line ++ xs.flatMap (' ' :: ·) := by
  induction xs generalizing line m with
  | nil => simp
  | cons y xs ih =>
    obtain ⟨hy, h⟩ := List.forall_mem_cons.1 h
    obtain ⟨n, hn⟩ := hy.tally
    rw [List.foldl_cons, ih (tally_glue hx hn) h, glue_eq hx hy.solid.trimEnd hy.ne_nil]
    simp

theorem withSeparator_eq (h : Phrased x) : Query.withSeparator [','] x = x ++ [','] := by
  obtain ⟨n, hn⟩ := h.tally
  obtain ⟨ts, hts, -, hl⟩ := scan_of_tally hn
  simp only [Query.withSeparator, h.solid.trimEnd, hts]
  cases e : lastToken? ts with
  | none => rfl
  | some p => simp [hl rfl p.2 (mem_of_lastToken? e)]

theorem glueItems_eq (hx : tally false line = some (m, false)) (h : ∀ y ∈ x :: xs, Phrased y) :
    Query.glueItems line (x :: xs) = line ++ ' ' :: Text.join ", " (x :: xs) := by
  induction xs generalizing line x m with
  | nil =>
    have hp := h x List.mem_cons_self
    rw [Query.glueItems, glue_eq hx hp.solid.trimEnd hp.ne_nil]
    rfl
  | cons y xs ih =>
    obtain ⟨hp, h⟩ := List.forall_mem_cons.1 h
    obtain ⟨n, hn⟩ := hp.tally
    have hs := withSeparator_eq hp
    have hg := glue_eq hx (y := x ++ [',']) (hp.solid.append solid_comma).trimEnd (by simp)
    have ht : tally false (line ++ ' ' :: (x ++ [','])) = some (m + n, false) := by
      rw [← hg, ← hs]
      exact tally_glue hx (tally_withSeparator (.inr rfl) hn)
    rw [Query.glueItems, hs, hg, ih ht h, Text.join]
    simp

/-- What stands after the source of a join. -/
structure Trailer where
  aliases : List Text := []
  columns : List Text := []
  predicates : List Text := []

def usingText (columns : List Text) : Text := "USING (" ++ Text.join ", " columns ++ ")"

theorem usingText_eq (xs : List Text) :
    usingText xs = "USING ".toList ++ ('(' :: Text.join ", " xs ++ [')']) := rfl

theorem tally_usingText (h : ∀ x ∈ xs, Phrased x) :
    ∃ n, tally false (usingText xs) = some (n, false) := by
  have hj := tally_enclosed ((adds_of_phrased h).join isSeparator_comma)
  rw [usingText_eq]
  exact ⟨_, (tally_loose_append (by decide)).trans hj⟩

theorem trimEnd_usingText (xs : List Text) : Text.trimEnd (usingText xs) = usingText xs := by
  have hclose : Text.trimEnd [')'] = [')'] := by decide
  have hink : ∃ c ∈ [')'], Text.isSpace c = false := ⟨')', List.mem_singleton_self _, by decide⟩
  rw [usingText_eq, ← List.append_assoc, trimEnd_append hink, hclose]

namespace Trailer

/-- The join that the trailer completes. -/
def join (x : Trailer) (kind : Text) (source : Source Query) : Join Query :=
  ⟨kind, source, x.aliases, x.columns, x.predicates⟩

def text (x : Trailer) : Text :=
  x.aliases.flatMap (' ' :: ·) ++ (if x.columns = [] then [] else ' ' :: usingText x.columns) ++
    (if x.predicates = [] then [] else (("ON" : Text) :: x.predicates).flatMap (' ' :: ·))

/-- Texts that a line can hold. -/
structure Printable (x : Trailer) : Prop where
  aliases : ∀ a ∈ x.aliases, Phrased a
  columns : ∀ c ∈ x.columns, Phrased c
  predicates : ∀ p ∈ x.predicates, Phrased p

variable {x : Trailer}

theorem Printable.joinTail (h : x.Printable) (hl : tally false line = some (m, false)) (kind : Text)
    (source : Source Query) :
    Query.joinTail line (x.join kind source) = line ++ x.text ∧
      ∃ n, tally false (line ++ x.text) = some (n, false) := by
  have ha := foldl_glue hl (adds_of_phrased h.aliases)
  obtain ⟨k, hu⟩ := tally_usingText h.columns
  -- the line up to `USING` and its columns
  obtain ⟨l, hcolumns, n, hn⟩ : ∃ l, (if x.columns = [] then x.aliases.foldl Query.glue line
      else Query.glue (x.aliases.foldl Query.glue line) (usingText x.columns)) = l ∧
          ∃ n, tally false l = some (n, false) := by
    refine ⟨_, rfl, ?_⟩
    split
    · exact ⟨_, ha⟩
    · exact ⟨_, tally_glue ha hu⟩
  have hl' : l = line ++ x.aliases.flatMap (' ' :: ·) ++ (if x.columns = [] then []
      else ' ' :: usingText x.columns) := by
    rw [← hcolumns, ← foldl_glue_eq hl h.aliases]
    split
    · rw [List.append_nil]
    · exact glue_eq ha (trimEnd_usingText _) (by simp [usingText_eq])
  have hon : ∀ p ∈ ("ON" : Text) :: x.predicates, Phrased p :=
    List.forall_mem_cons.2 ⟨⟨⟨by decide, by decide⟩, by decide, 0, tally_of_loose (by decide)⟩,
      h.predicates⟩
  have htail : Query.joinTail line (x.join kind source) =
      if x.predicates = [] then l else (("ON" : Text) :: x.predicates).foldl Query.glue l := by
    rw [← hcolumns]
    rfl
  rw [htail, Trailer.text, ← List.append_assoc, ← List.append_assoc, ← hl']
  split
  · rw [List.append_nil]
    exact ⟨rfl, n, hn⟩
  · rw [← foldl_glue_eq hn hon]
    exact ⟨rfl, _, foldl_glue hn (adds_of_phrased hon)⟩

end Trailer

end QueryTemplate
