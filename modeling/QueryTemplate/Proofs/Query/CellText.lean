import QueryTemplate.Proofs.Query.Items
import QueryTemplate.Proofs.Query.Lines
namespace QueryTemplate

open Token Fragment Grammar

variable {t : Token} {ts : List Token}

theorem SlashFree.append_sealed {a b : List Token} (ha : SlashFree a) (hb : SlashFree b)
    (hn : commentEnd (textOf b) = none) (hh : ∀ c ∈ (textOf b).head?, c ≠ '*' ∧ c ≠ '/') :
    SlashFree (a ++ b) := by
  induction a with
  | nil => exact hb
  | cons t a ih =>
    refine ⟨fun ht x hx ↦ ?_, ih ha.2⟩
    have hx : textOf (a ++ b) = '*' :: x := hx
    rw [textOf_append] at hx
    cases e : textOf a with
    | nil =>
      rw [e, List.nil_append] at hx
      exact absurd rfl (hh '*' (by rw [hx]; rfl)).1
    | cons c u =>
      rw [e] at hx
      obtain ⟨rfl, rfl⟩ := List.cons.inj hx
      exact commentEnd_append (ha.1 ht _ e) hn fun h ↦ absurd rfl (hh _ h).2

theorem lexed_commas (k : Nat) : Lexed (List.replicate k comma) := by
  have hc : munch (comma.text ++ []) = some (⟨.punctuation, comma.text⟩, []) := by decide +kernel
  induction k with
  | zero => exact lexed_nil
  | succ k ih =>
    refine lexed_cons.2 ⟨munch_punctuation_congr hc (.inr ?_), ih⟩
    cases k with
    | zero => exact sealed_nil.1.parted
    | succ k => exact (sealed_comma _).1.parted

theorem commentEnd_commas (k : Nat) : commentEnd (textOf (List.replicate k comma)) = none := by
  induction k with
  | zero => rfl
  | succ k ih => exact commentEnd_append (u := [',']) rfl ih fun _ e ↦ by cases e

theorem Lexical.blank (h : Lexical t) (hb : t.kind = .blank) :
    ∀ c ∈ t.text, Text.isBlank c = true := by
  obtain ⟨us, h⟩ := h
  have hm := munch_of_lexed h
  obtain ⟨k, u⟩ := t
  obtain rfl : k = .blank := hb
  exact (munch_blank_iff.1 hm).2.1

/-- Commas may follow an item. -/
theorem Good.lexed_commas {its : List Token} (h : Good its) (k : Nat) :
    Lexed (its ++ List.replicate k comma) := by
  cases k with
  | zero => simpa using h.lexed
  | succ k =>
    refine h.lexed.append (QueryTemplate.lexed_commas _) (sealed_comma _) rfl
      (fun t ht ↦ ⟨fun hb ↦ ?_, h.comment t (List.mem_of_getLast? ht)⟩)
      (h.lexed.slashFree.append_sealed (QueryTemplate.lexed_commas _).slashFree
        (commentEnd_commas _) fun c hc ↦ ?_)
    · have hl := h.lexed.lexical t (List.mem_of_getLast? ht)
      obtain ⟨a, rfl⟩ := List.getLast?_eq_some_iff.1 ht
      have hc := List.getLast?_eq_some_getLast hl.text_ne_nil
      have hs := h.solid.last (t.text.getLast hl.text_ne_nil) (by simp [hc])
      rw [Text.isSpace_of_isBlank (hl.blank hb _ (List.getLast_mem _))] at hs
      cases hs
    · obtain rfl := Option.some.inj hc
      decide

theorem mem_of_lastToken? {ts before : List Token} {t : Token}
    (h : lastToken? ts = some (before, t)) : t ∈ ts := by
  rw [lastToken?] at h
  split at h
  · cases h
  · rename_i u us e
    obtain ⟨-, rfl⟩ := Prod.mk.inj (Option.some.inj h)
    exact List.mem_reverse.1 ((List.dropWhile_sublist _).mem (e ▸ List.mem_cons_self))

theorem isLineComment_of_kind (h : t.kind ≠ .comment) : t.isLineComment = false := by simp [isLineComment, h]

/-- A text without comments does not end in one. -/
theorem endsInLineComment_of_lexed (h : Lexed ts) (hc : ∀ t ∈ ts, t.kind ≠ .comment) :
    endsInLineComment (textOf ts) = false := by
  rw [endsInLineComment, h]
  cases e : lastToken? ts with
  | none => rfl
  | some p => exact isLineComment_of_kind (hc _ (mem_of_lastToken? e))

theorem withSeparator_of_lexed (h : Lexed ts) (hc : ∀ t ∈ ts, t.kind ≠ .comment)
    (hs : Text.trimEnd (textOf ts) = textOf ts) (sep : Text) :
    Query.withSeparator sep (textOf ts) = textOf ts ++ sep := by
  have hscan : scan (textOf ts) = ⟨ts, []⟩ := h
  simp only [Query.withSeparator, hs, hscan]
  cases e : lastToken? ts with
  | none => rfl
  | some p => simp [isLineComment_of_kind (hc _ (mem_of_lastToken? e))]

theorem solid_comma : Solid [','] := ⟨by decide, by decide⟩

theorem solid_commas (k : Nat) : Solid (textOf (List.replicate k comma)) := by
  induction k with
  | zero => exact ⟨by decide, by decide⟩
  | succ k ih => exact solid_comma.append ih

/-- A cell that is read as its tokens. -/
theorem Good.withSeparator {its : List Token} (h : Good its) (k : Nat) (sep : Text) :
    Query.withSeparator sep (textOf (its ++ List.replicate k comma)) =
      textOf (its ++ List.replicate k comma) ++ sep ∧
      Text.trimEnd (textOf (its ++ List.replicate k comma)) =
          textOf (its ++ List.replicate k comma) := by
  have hs : Text.trimEnd (textOf (its ++ List.replicate k comma)) =
      textOf (its ++ List.replicate k comma) := by
    rw [textOf_append]
    exact (h.solid.append (solid_commas k)).trimEnd
  refine ⟨withSeparator_of_lexed (h.lexed_commas k) (fun t ht ↦ ?_) hs sep, hs⟩
  rcases List.mem_append.1 ht with ht | ht
  · exact h.comment t ht
  · rw [List.eq_of_mem_replicate ht]
    decide

theorem Good.textOf_ne_nil {x : Cell} (h : Good x.its) : textOf x.tokens ≠ [] := by
  obtain ⟨t, r, ht⟩ := List.exists_cons_of_ne_nil h.ne
  have hl := h.lexed
  rw [ht] at hl
  simp [Cell.tokens, ht, hl.text_ne_nil]

namespace Query

theorem foldMarkers_commas {its : List Token}
    (h : ∀ j, withSeparator [','] (textOf (its ++ List.replicate j comma)) =
      textOf (its ++ List.replicate j comma) ++ [',']) (xs : List Text) (k j : Nat) :
    foldMarkers.go (textOf (its ++ List.replicate j comma)) (List.replicate k [','] ++ xs) =
      foldMarkers.go (textOf (its ++ List.replicate (j + k) comma)) xs := by
  induction k generalizing j with
  | zero => rfl
  | succ k ih =>
    have hw : textOf (its ++ List.replicate j comma) ++ [','] =
        textOf (its ++ List.replicate (j + 1) comma) := by
      rw [List.replicate_succ', ← List.append_assoc, textOf_append _ [comma]]
      rfl
    rw [List.replicate_succ, List.cons_append, foldMarkers.go,
      if_pos (show [','] = commaMarker from rfl), h j, hw, ih, Nat.add_right_comm, Nat.add_assoc]

/-- Commas between predicates go to the end of those before them. -/
theorem foldMarkers_cells {cells : List Cell} (h : ∀ x ∈ cells, Good x.its) :
    foldMarkers (cells.flatMap Cell.items) = cells.map fun x ↦ textOf x.tokens := by
  have hgo : ∀ (cells : List Cell) (x : Cell), Good x.its → (∀ y ∈ cells, Good y.its) →
      foldMarkers.go (textOf x.its) (List.replicate x.commas [','] ++ cells.flatMap Cell.items) =
        textOf x.tokens :: cells.map fun y ↦ textOf y.tokens := by
    intro cells
    induction cells with
    | nil =>
      intro x hx _
      have := foldMarkers_commas (fun j ↦ (hx.withSeparator j _).1) [] x.commas 0
      simpa [foldMarkers.go, Cell.tokens] using this
    | cons y cells ih =>
      intro x hx hr
      obtain ⟨hy, hr⟩ := List.forall_mem_cons.1 hr
      have := foldMarkers_commas (fun j ↦ (hx.withSeparator j _).1)
        (y.items ++ cells.flatMap Cell.items) x.commas 0
      rw [List.replicate_zero, List.append_nil, Nat.zero_add, Cell.items, List.cons_append,
        foldMarkers.go, if_neg (show textOf y.its ≠ commaMarker from hy.marker), ih y hy hr] at this
      exact this
  cases cells with
  | nil => rfl
  | cons x cells =>
    obtain ⟨hx, hr⟩ := List.forall_mem_cons.1 h
    exact hgo cells x hx hr

end Query

def IsIndent (indent : Text) : Prop := ∀ c ∈ indent, Text.isBlank c = true

theorem IsIndent.tab {indent : Text} (h : IsIndent indent) : IsIndent (indent ++ Query.tab) :=
  List.forall_mem_append.2 ⟨h, by decide⟩

/-- A line of code after its indentation does not end in a comment. -/
theorem IsIndent.endsInLineComment {indent : Text} (h : IsIndent indent) (hl : Lexed ts)
    (hb : ∀ t ∈ ts.head?, t.isBlank = false) (hc : ∀ t ∈ ts, t.kind ≠ .comment) :
    endsInLineComment (indent ++ textOf ts) = false := by
  by_cases hi : indent = []
  · rw [hi]
    exact endsInLineComment_of_lexed hl hc
  · exact endsInLineComment_of_lexed (hl.blank_cons hb hi h) (List.forall_mem_cons.2 ⟨by simp, hc⟩)

/-- A line break and the indentation of the line after it. -/
def Token.newLine (indent : Text) : Token := ⟨.blank, '\n' :: indent⟩

theorem IsIndent.isGap {indent : Text} (h : IsIndent indent) : IsGap (newLine indent) :=
  ⟨rfl, by simp [newLine], List.forall_mem_cons.2 ⟨rfl, h⟩⟩

/-- What stands before the items of a clause: one is beside its keyword, several are below it. -/
def itemGap (indent : Text) (cells : List Cell) : Token :=
  if cells.length = 1 then space else newLine (indent ++ Query.tab)

theorem IsIndent.itemGap {indent : Text} (h : IsIndent indent) (cells : List Cell) :
    IsGap (itemGap indent cells) := by
  rw [QueryTemplate.itemGap]
  split
  · exact isGap_space
  · exact h.tab.isGap

theorem Separated.commas {cells : List Cell} (h : Separated cells) :
    (∀ x ∈ cells.getLast?, x.commas = 0) ∧ ∀ x ∈ cells.dropLast, x.commas = 1 := by
  induction cells with
  | nil => simp
  | cons x cells ih =>
    cases cells with
    | nil => exact ⟨fun y hy ↦ Option.some.inj hy ▸ h, by simp⟩
    | cons y r =>
      obtain ⟨h₁, h₂⟩ := ih h.2
      exact ⟨by simpa using h₁, List.forall_mem_cons.2 ⟨h.1, h₂⟩⟩

namespace Query

variable {indent sep : Text} {cells : List Cell}

/-- Items on lines of their own, given what each one is printed from. -/
theorem textOf_itemLines_cells (f : Cell → Text) (hne : cells ≠ [])
    (hl : ∀ x ∈ cells.getLast?, Text.trimEnd (f x) = textOf x.tokens)
    (hs : ∀ x ∈ cells.dropLast, withSeparator sep (f x) = textOf x.tokens) :
    (itemLines indent sep (cells.map f)).flatMap (['\n'] ++ ·) =
      textOf (trail (newLine (indent ++ tab)) cells) := by
  induction cells with
  | nil => exact absurd rfl hne
  | cons x cells ih =>
    cases cells with
    | nil =>
      have := hl x rfl
      simp [itemLines, this, trail, newLine]
    | cons y r =>
      rw [List.dropLast_cons_cons, List.forall_mem_cons] at hs
      have ih := ih (by simp) (by simpa using hl) hs.2
      rw [List.map_cons] at ih
      rw [List.map_cons, List.map_cons, itemLines, List.flatMap_cons, ih, hs.1, trail, trail,
        List.flatMap_cons]
      simp [newLine]

theorem join_clauseLines {keyword : Text} (f : Cell → Text)
    (hk : endsInLineComment (indent ++ keyword) = false) (hc : ∀ x ∈ cells, textOf x.tokens ≠ [])
    (hl : ∀ x ∈ cells.getLast?, Text.trimEnd (f x) = textOf x.tokens)
    (hs : ∀ x ∈ cells.dropLast, withSeparator sep (f x) = textOf x.tokens) :
    Text.join ['\n'] (clauseLines indent keyword sep (cells.map f)) =
      indent ++ keyword ++ textOf (trail (itemGap indent cells) cells) := by
  rcases cells with _ | ⟨x, _ | ⟨y, r⟩⟩
  · simp [clauseLines, Text.join, trail]
  · simp [clauseLines, Text.join, glue, hl x rfl, hc x List.mem_cons_self, hk, trail, itemGap,
      space]
  · have h : _ = textOf (trail (newLine (indent ++ tab)) (x :: y :: r)) :=
      textOf_itemLines_cells f (List.cons_ne_nil x (y :: r)) hl hs
    rw [List.map_cons, List.map_cons, clauseLines, join_cons, ← List.map_cons, ← List.map_cons, h,
      itemGap, if_neg (by simp)]

/-- The text of a clause that is a list. -/
theorem join_listLines {c : Clause} {xs : List Text} (hc : c ∈ Clause.keywordClauses)
    (hi : IsIndent indent) (hg : ∀ x ∈ cells, Good x.its) (hs : Shape c xs 0 cells) :
    Text.join ['\n'] (listLines indent c xs) =
      indent ++ textOf (c.title :: spread (itemGap indent cells) 0 cells) := by
  have hk : endsInLineComment (indent ++ c.title.text) = false := by
    have := hi.endsInLineComment (title_spec c hc).1 (by simp [Clause.title, isBlank])
      (by simp [Clause.title])
    simpa using this
  have hne : ∀ x ∈ cells, textOf x.tokens ≠ [] := fun x hx ↦ (hg x hx).textOf_ne_nil
  rw [Shape] at hs
  rw [listLines, spread, List.replicate_zero, List.nil_append, textOf_cons, ← List.append_assoc]
  split at hs
  · rename_i hp
    rw [List.replicate_zero, List.nil_append] at hs
    rw [if_pos hp, if_pos hp, hs.1, foldMarkers_cells hg]
    refine join_clauseLines _ hk hne (fun x hx ↦ ?_) fun x hx ↦ ?_
    · exact ((hg x (List.mem_of_getLast? hx)).withSeparator x.commas []).2
    · exact ((hg x ((List.dropLast_sublist cells).mem hx)).withSeparator x.commas []).1.trans
        (List.append_nil _)
  · rename_i hp
    rw [if_neg hp, if_neg hp, hs.1]
    obtain ⟨hl, hd⟩ := hs.2.commas
    refine join_clauseLines _ hk hne (fun x hx ↦ ?_) fun x hx ↦ ?_
    · rw [Cell.tokens, hl x hx, List.replicate_zero, List.append_nil]
      exact (hg x (List.mem_of_getLast? hx)).solid.trimEnd
    · have hx' := hg x ((List.dropLast_sublist cells).mem hx)
      rw [Cell.tokens, hd x hx, withSeparator_of_lexed hx'.lexed hx'.comment hx'.solid.trimEnd]
      simp [comma]

end Query
end QueryTemplate
