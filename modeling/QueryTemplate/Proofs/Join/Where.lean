import QueryTemplate.Proofs.Query.Statement
namespace QueryTemplate

open Token Fragment Grammar

variable {cells : List Cell} {indent : Text} {items : List Text} {us : List Token} {t : Token}
    {k : Nat}

theorem withSeparator_commas (k : Nat) (sep : Text) :
    Query.withSeparator sep (textOf (List.replicate k comma)) =
      textOf (List.replicate k comma) ++ sep :=
  withSeparator_of_lexed (lexed_commas k) (fun t ht ↦ by simp [List.eq_of_mem_replicate ht, comma])
    (solid_commas k).trimEnd sep

namespace Query

/-- Commas before the first predicate stay in front, in one piece. -/
theorem foldMarkers_lead (h : ∀ x ∈ cells, Good x.its) (k : Nat) :
    foldMarkers (List.replicate (k + 1) [','] ++ cells.flatMap Cell.items) =
      textOf (List.replicate (k + 1) comma) :: cells.map fun x ↦ textOf x.tokens := by
  have hcommas := @foldMarkers_commas [comma] (fun j ↦ withSeparator_commas (j + 1) [','])
    (cells.flatMap Cell.items) k 0
  rw [Nat.zero_add] at hcommas
  refine hcommas.trans ?_
  cases cells with
  | nil => rfl
  | cons x cells =>
    have hx : textOf x.its ≠ commaMarker := (h x List.mem_cons_self).marker
    have hgo : ∀ (s : Text) (ys : List Text),
        foldMarkers.go s (textOf x.its :: ys) = s :: foldMarkers (textOf x.its :: ys) :=
          fun s ys ↦ by
      rw [foldMarkers.go, if_neg hx]
      rfl
    rw [← foldMarkers_cells h]
    exact hgo _ _

/-- The text of `WHERE` with commas before the first predicate. -/
theorem join_listLines_lead (hi : IsIndent indent) (hg : ∀ x ∈ cells, Good x.its)
    (hs : Shape (.slot .condition) items (k + 1) cells) :
    Text.join ['\n'] (listLines indent (.slot .condition) items) = indent ++
      textOf ((Clause.slot .condition).title ::
          trail (itemGap indent (⟨[comma], k⟩ :: cells)) (⟨[comma], k⟩ :: cells)) := by
  obtain ⟨htitle, -, -⟩ := title_spec (.slot .condition) (by decide)
  have hk : endsInLineComment (indent ++ (Clause.slot .condition).title.text) = false := by
    have := hi.endsInLineComment htitle (by decide) (by decide)
    simpa using this
  have hp : (Clause.slot .condition).isPredicate = true := rfl
  have hlead : foldMarkers items =
      (⟨[comma], k⟩ :: cells : List Cell).map fun x ↦ textOf x.tokens := by
    rw [Shape, if_pos hp] at hs
    rw [hs.1, foldMarkers_lead hg]
    rfl
  -- each cell is printed as it is, the commas in front too
  have hcells : ∀ x ∈ (⟨[comma], k⟩ :: cells : List Cell), textOf x.tokens ≠ [] ∧
    Text.trimEnd (textOf x.tokens) = textOf x.tokens ∧
      withSeparator [] (textOf x.tokens) = textOf x.tokens := by
    refine List.forall_mem_cons.2
      ⟨⟨by simp [Cell.tokens, comma], (solid_commas (k + 1)).trimEnd, ?_⟩, fun x hx ↦ ⟨?_, ?_, ?_⟩⟩
    · exact (withSeparator_commas (k + 1) []).trans (List.append_nil _)
    · exact (hg x hx).textOf_ne_nil
    · exact ((hg x hx).withSeparator x.commas []).2
    · exact ((hg x hx).withSeparator x.commas []).1.trans (List.append_nil _)
  rw [listLines, if_pos hp, if_pos hp, hlead, textOf_cons, ← List.append_assoc]
  exact join_clauseLines _ hk (fun x hx ↦ (hcells x hx).1)
    (fun x hx ↦ (hcells x (List.mem_of_getLast? hx)).2.1)
    fun x hx ↦ (hcells x ((List.dropLast_sublist _).mem hx)).2.2

end Query

theorem trail_lead (gap : Token) (k : Nat) (cells : List Cell) :
    trail gap (⟨[comma], k⟩ :: cells) = gap :: spread gap (k + 1) cells := by
  simp [trail, spread, Cell.tokens, List.replicate_succ]

/-- `WHERE` and what follows it, commas before the first predicate too. -/
theorem Listed.prints_where (h : Listed (.slot .condition) false us items k cells)
    (ht : t.isClause "where" = true) (hl : Lexical t) (hb : Balanced us) :
    Prints (t :: us) [.items (.slot .condition) items] := by
  simp only [isClause, Bool.and_eq_true, decide_eq_true_eq] at ht
  obtain ⟨hk, hkey⟩ := ht
  have hw : Clause.ofKeyword? t.keyword = some (.slot .condition) := by
    rw [hkey]
    decide
  have hne : t.keyword ≠ "with" := by
    rw [hkey]
    decide
  obtain ⟨htitle, htw, htkey⟩ := title_spec (.slot .condition) (by decide)
  cases k with
  | zero => exact h.prints hw hk hl hb (.inr hne)
  | succ k =>
    have hrel : ∀ {z vs ws : List Token} {gap : Token}, IsGap gap → Ending z vs ws →
        Relaid z (us ++ vs) (gap :: spread gap (k + 1) cells ++ ws) ∧
            Sealed (textOf (gap :: spread gap (k + 1) cells ++ ws)) := by
      intro z vs ws gap hgap he
      refine ⟨(h.relaid_spread hgap he).1.gap hgap ?_, sealed_gap hgap _⟩
      simp [spread, List.replicate_succ, comma, Token.isBlank]
    refine ⟨fills_items hk hw h.reads hb, .cons hk hl us, fun indent hi ↦ ?_⟩
    have hgap := hi.itemGap (⟨[comma], k⟩ :: cells)
    refine ⟨(Clause.slot .condition).title :: trail (itemGap indent (⟨[comma], k⟩ :: cells))
      (⟨[comma], k⟩ :: cells), ?_,
      .cons rfl ⟨_, htitle⟩ _, ?_, fun {z vs ws} he ↦ ?_⟩
    · rw [List.flatMap_singleton, Filling.lines, Query.join_listLines_lead hi h.good h.shape]
    · have hbal := (hrel hgap (.nil (z := []) rfl)).1
      rw [List.append_nil, List.append_nil] at hbal
      obtain ⟨ys, g, hr, hx⟩ := h.rereads_spread hgap
      rw [trail_lead]
      intro q d us hd hq hu
      exact fills_items (t := (Clause.slot .condition).title) rfl htw ⟨ys, g,
        .blank hgap.isBlank hr, hx⟩ (hbal.balanced hb) hd hq hu
    · obtain ⟨h₁, h₂⟩ := hrel hgap he
      rw [trail_lead]
      exact .rewrite (Token.isTitle_of_clause hk) hk.symm (htkey.trans hkey.symm) htitle h₂.1
        (.inl ⟨hk, hne⟩) h₁

end QueryTemplate
