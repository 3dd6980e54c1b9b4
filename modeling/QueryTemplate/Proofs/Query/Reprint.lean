import QueryTemplate.Proofs.Query.Lines
import QueryTemplate.Proofs.Query.Printed
namespace QueryTemplate

open Token Fragment Grammar Formula

/-- What stands between a printed keyword and its items: one is beside it, several are below it. -/
def leader (xs : List (List Token)) : Token := if xs.length = 1 then space else lineStart

/-- The passage that is read where one was printed, with the blanks `tail` after it. -/
def Passage.reprinted (tail : List Token) (p : Passage) : Passage where
  clause := p.clause
  heading := p.clause.title
  items := (if p.clause.isPredicate then relaidConjuncts else relaidList) [leader p.items] tail
    (p.items.map inked)

/-- The passages that are read where some were printed. -/
def reprint : List Passage → List Passage
  | [] => []
  | [p] => [p.reprinted []]
  | p :: q :: r => p.reprinted [lineBreak] :: reprint (q :: r)

/-- The clauses of a statement in the order in which they are printed. -/
def selectClauses : List Clause := .slot .select :: .source :: laterClauses

/-- A passage of a statement whose items are expressions. -/
structure Passage.Prints (p : Passage) : Prop where
  wellFormed : p.WellFormed
  clause : p.clause ∈ selectClauses
  inline : ∀ x ∈ p.items, Inline (inked x)

section

variable {p : Passage} {ps : List Passage} {tail us : List Token}

theorem name_selectClauses :
    ∀ c ∈ selectClauses, c ∈ Clause.keywordClauses ∧ c.name ≠ "with".toList := by decide

theorem leader_blank (xs : List (List Token)) : (leader xs).kind = .blank ∧ (leader xs).text ≠ [] ∧
    ∀ c ∈ (leader xs).text, Text.isBlank c = true := by
  rw [leader]
  split <;> decide

theorem tokens_reprinted (hne : p.items ≠ []) (tail : List Token) :
    (p.reprinted tail).tokens = p.clause.title :: leader p.items ::
      (printed p.separator (p.items.map inked) ++ tail) := by
  have hls : p.items.map inked ≠ [] := by simpa using hne
  rw [Passage.tokens, Passage.separator, Passage.separator]
  cases hp : p.clause.isPredicate with
  | true => simp [Passage.reprinted, hp, separated_nil, flatten_relaidConjuncts hls]
  | false => simp [Passage.reprinted, hp, separated_relaidList hls]

namespace Passage.Prints

theorem isItem (h : p.Prints) (hp : p.clause.isPredicate = false) : ∀ x ∈ p.items, IsItem x := by
  obtain ⟨y, r, e⟩ := List.exists_cons_of_ne_nil h.wellFormed.ne
  have ht := h.wellFormed.tail
  rw [hp, e] at ht
  rw [e]
  exact List.forall_mem_cons.2 ⟨h.wellFormed.head y (by rw [e]; rfl), ht⟩

theorem isConjunct (h : p.Prints) (hp : p.clause.isPredicate = true) :
    ∀ x ∈ p.items.tail, IsConjunct x := by
  have ht := h.wellFormed.tail
  rwa [hp] at ht

theorem code (h : p.Prints) : ∀ x ∈ p.items, codeOf x ≠ [] := by
  cases hp : p.clause.isPredicate with
  | false => exact fun x hx ↦ (h.isItem hp x hx).code
  | true =>
    obtain ⟨y, r, e⟩ := List.exists_cons_of_ne_nil h.wellFormed.ne
    have ht := h.isConjunct hp
    rw [e] at ht ⊢
    refine List.forall_mem_cons.2 ⟨(h.wellFormed.head y (by rw [e]; rfl)).code, fun x hx ↦ ?_⟩
    obtain ⟨t, y, rfl, hk, -⟩ := ht x hx
    rw [codeOf_cons_code (by simp [hk]) (by simp [hk])]
    simp

theorem inked (h : p.Prints) : ∀ l ∈ p.items.map inked, Inline l ∧ codeOf l ≠ [] := by
  refine List.forall_mem_map.2 fun x hx ↦ ⟨h.inline x hx, ?_⟩
  rw [codeOf_inked]
  exact h.code x hx

end Passage.Prints

theorem IsExpr.inked {x : List Token} (h : IsExpr x) : IsExpr (inked x) :=
  h.congr (codeOf_inked x) (by rw [inked_inked]; exact h.abutting)

theorem IsItem.inked {x : List Token} (h : IsItem x) : IsItem (inked x) :=
  ⟨h.toIsExpr.inked, by rw [codeOf_inked]; exact h.code⟩

theorem IsConjunct.inked {x : List Token} (h : IsConjunct x) : IsConjunct (inked x) := by
  obtain ⟨t, y, rfl, ht, hy⟩ := h
  exact ⟨t, _, inked_cons (by simp [Token.isBlank, ht]) y, ht, hy.inked⟩

theorem separates (h : p.Prints) : Separates p.separator (p.items.map QueryTemplate.inked) := by
  rw [Passage.separator]
  cases hp : p.clause.isPredicate with
  | false => exact .inl rfl
  | true =>
    refine .inr ⟨rfl, ?_⟩
    rw [← List.map_tail]
    refine List.forall_mem_map.2 fun x hx t ht ↦ ?_
    obtain ⟨u, y, rfl, hu, -⟩ := h.isConjunct hp x hx
    rw [inked_cons (by simp [Token.isBlank, hu])] at ht
    exact Option.some.inj ht ▸ hu

theorem head_printed_nonblank {sep : List Token} {ls : List (List Token)}
    (hl : ∀ l ∈ ls, Inline l ∧ codeOf l ≠ []) (hne : ls ≠ []) (us : List Token) :
    ∀ t ∈ (printed sep ls ++ us).head?, t.isBlank = false := by
  obtain ⟨l, r, rfl⟩ := List.exists_cons_of_ne_nil hne
  obtain ⟨hi, hc⟩ := hl l List.mem_cons_self
  cases l with
  | nil => exact absurd rfl hc
  | cons t l =>
    obtain ⟨u, vs, e, hk⟩ := head_printed (r := r) hc sep
    rw [e]
    intro v hv
    rw [← Option.some.inj hv, Token.isBlank, hk]
    exact hi.isBlank_eq_false List.mem_cons_self

/-- A printed passage is read as its tokens. -/
theorem lexed_reprinted (h : p.Prints) (hu : ∀ l, Follows l (tail ++ us)) :
    Lexed ((p.reprinted tail).tokens ++ us) := by
  have hls : p.items.map inked ≠ [] := by simpa using h.wellFormed.ne
  have hprinted := lexed_printed h.inked (separates h) hls hu
  obtain ⟨hb, hne, hall⟩ := leader_blank p.items
  have hlead : Lexed (leader p.items ::
      (printed p.separator (p.items.map QueryTemplate.inked) ++ (tail ++ us))) := by
    have := hprinted.blank_cons (head_printed_nonblank h.inked hls _) hne hall
    rwa [← hb] at this
  obtain ⟨hc, hn⟩ := name_selectClauses _ h.clause
  obtain ⟨ht, -, hk⟩ := title_spec _ hc
  obtain ⟨c, g, e⟩ := List.exists_cons_of_ne_nil hne
  have hd : Delimited (textOf (leader p.items ::
      (printed p.separator (p.items.map QueryTemplate.inked) ++ (tail ++ us)))) := by
    rw [textOf_cons, e]
    exact (sealed_blank (hall c (by simp [e])) _).1
  rw [tokens_reprinted h.wellFormed.ne, List.cons_append, List.cons_append, List.append_assoc]
  exact ht.rewrite rfl ht rfl rfl hlead hd (.inl ⟨rfl, hk ▸ hn⟩)

theorem lexed_reprint (h : ∀ p ∈ ps, p.Prints) : Lexed (statement (reprint ps)) := by
  fun_induction reprint ps with
  | case1 => exact lexed_nil
  | case2 p =>
    have : Lexed ((p.reprinted []).tokens ++ []) :=
      lexed_reprinted (h p List.mem_cons_self) follows_nil
    simpa [statement] using this
  | case3 p q r ih =>
    obtain ⟨hp, hr⟩ := List.forall_mem_cons.1 h
    have ih := ih hr
    obtain ⟨ts, e⟩ : ∃ ts, statement (reprint (q :: r)) = q.clause.title :: ts := by
      cases r with
      | nil => exact ⟨_, rfl⟩
      | cons s r => exact ⟨_, rfl⟩
    rw [statement, List.flatMap_cons, ← statement]
    refine lexed_reprinted hp fun l ↦ ⟨ih.blank_cons ?_ (by decide) (by decide), sealed_blank rfl _,
      fun _ _ _ ↦ ?_,
      fun _ _ _ ↦ by simp [lineBreak]⟩
    · rw [e]
      intro t ht
      exact Option.some.inj ht ▸ rfl
    · rw [List.singleton_append, ahead_blank rfl, e]
      rw [e] at ih
      exact ih.ahead_clause rfl

theorem leader_blanks (xs : List (List Token)) : ∀ t ∈ [leader xs], t.kind = .blank :=
  List.forall_mem_singleton.2 (leader_blank xs).1

theorem map_codeOf_inked (xs : List (List Token)) : (xs.map inked).map codeOf = xs.map codeOf := by
  rw [List.map_map]
  exact List.map_congr_left fun x _ ↦ codeOf_inked x

theorem items_reprinted_list (hp : p.clause.isPredicate = false) (tail : List Token) :
    (p.reprinted tail).items = relaidList [leader p.items] tail (p.items.map inked) := by
  simp [Passage.reprinted, hp]

theorem items_reprinted_conjuncts (h : p.Prints) (hp : p.clause.isPredicate = true)
    (ht : ∀ t ∈ tail, t.kind = .blank) :
    ∃ x xs, (p.reprinted tail).items = x :: xs ∧ IsItem x ∧ (∀ y ∈ xs, IsConjunct y) ∧
      (x :: xs).map codeOf = p.items.map codeOf := by
  obtain ⟨y, r, e⟩ := List.exists_cons_of_ne_nil h.wellFormed.ne
  have hy := h.wellFormed.head y (by rw [e]; rfl)
  have hc : ∀ x ∈ r, IsConjunct x := by
    have := h.isConjunct hp
    rwa [e] at this
  have hi := h.inline
  rw [e] at hi
  obtain ⟨hiy, hir⟩ := List.forall_mem_cons.1 hi
  obtain ⟨x, xs, hxs, h₁, h₂, h₃⟩ := isItem_relaidConjuncts hy.inked hiy
    (List.forall_mem_map.2 fun x hx ↦ ⟨(hc x hx).inked, hir x hx⟩) (leader_blanks (y :: r)) ht
  refine ⟨x, xs, ?_, h₁, h₂, ?_⟩
  · rw [← hxs]
    simp [Passage.reprinted, hp, e]
  · rw [h₃, ← List.map_cons, map_codeOf_inked, e]

/-- What a passage says is read again as items of its clause. -/
theorem wellFormed_reprinted (h : p.Prints) (ht : ∀ t ∈ tail, t.kind = .blank) :
    (p.reprinted tail).WellFormed := by
  obtain ⟨-, hk, -⟩ := title_spec _ (name_selectClauses _ h.clause).1
  cases hp : p.clause.isPredicate with
  | false =>
    have hitems := items_reprinted_list hp tail
    have hall : ∀ x ∈ (p.reprinted tail).items, IsItem x := by
      rw [hitems]
      exact isItem_relaidList (List.forall_mem_map.2 fun x hx ↦
        ⟨(h.isItem hp x hx).inked, h.inline x hx⟩)
        (opens_blanks (leader_blanks p.items)) ht
    refine ⟨⟨rfl, hk⟩, ?_, fun x hx ↦ hall x (List.mem_of_mem_head? hx), fun x hx ↦ ?_, fun hs ↦ ?_⟩
    · rw [hitems]
      exact relaidList_ne_nil (by simpa using h.wellFormed.ne) _ _
    · rw [show (p.reprinted tail).clause.isPredicate = false from hp]
      exact hall x (List.mem_of_mem_tail hx)
    · rw [hitems]
      refine forall_codeOf_relaidList (List.forall_mem_map.2 fun x hx ↦ ⟨h.inline x hx, ?_⟩) ?_ ht
      · rw [codeOf_inked]
        exact h.wellFormed.table hs x hx
      · rw [codeOf_blanks (leader_blanks _)]
        nofun
  | true =>
    obtain ⟨x, xs, hitems, h₁, h₂, -⟩ := items_reprinted_conjuncts h hp ht
    refine ⟨⟨rfl, hk⟩, by simp [hitems], fun z hz ↦ ?_, fun z hz ↦ ?_, fun hs ↦ ?_⟩
    · rw [hitems] at hz
      exact Option.some.inj hz ▸ h₁
    · rw [show (p.reprinted tail).clause.isPredicate = true from hp, if_pos rfl]
      rw [hitems] at hz
      exact h₂ z hz
    · rw [show p.clause = .source from hs] at hp
      cases hp

/-- Whether an item ends in two line comments. -/
def EndsInTwoLineComments (x : List Token) : Prop :=
  ∃ y c t, inked x = y ++ [c, t] ∧ c.isLineComment = true ∧ t.isLineComment = true

theorem isTwo_iff {x : List Token} :
    (lineEnding (inked x)).isTwo = true ↔ EndsInTwoLineComments x := by
  constructor
  · intro h
    cases e : lineEnding (inked x) with
    | code | one =>
      rw [e] at h
      cases h
    | two j c t =>
      obtain ⟨h₁, h₂, h₃⟩ := lineEnding_two e
      exact ⟨j, c, t, by rw [h₁]; simp, h₂, h₃⟩
  · rintro ⟨j, c, t, h₁, h₂, h₃⟩
    rw [h₁, lineEnding_concat h₂ h₃]
    rfl

/-- A separator gets lost between items of a passage. -/
def Passage.LosesComma (p : Passage) : Prop :=
  p.clause.isPredicate = false ∧ ∃ x ∈ p.items.dropLast, EndsInTwoLineComments x

/-- Printing keeps what the items of a passage say but where a comma gets lost. -/
theorem codeOf_reprinted_iff (h : p.Prints) (ht : ∀ t ∈ tail, t.kind = .blank) :
    (p.reprinted tail).items.map codeOf = p.items.map codeOf ↔ ¬ p.LosesComma := by
  cases hp : p.clause.isPredicate with
  | false =>
    rw [items_reprinted_list hp, ← map_codeOf_inked p.items,
      codeOf_relaidList_iff (List.forall_mem_map.2 h.inline) (codeOf_blanks (leader_blanks _)) ht,
      ← List.map_dropLast, List.forall_mem_map]
    simp only [Passage.LosesComma, hp, true_and, not_exists, not_and, ← isTwo_iff, Bool.not_eq_true]
  | true =>
    obtain ⟨x, xs, hitems, -, -, h₃⟩ := items_reprinted_conjuncts h hp ht
    refine iff_of_true (by rw [hitems, h₃]) fun hl ↦ ?_
    rw [hl.1] at hp
    cases hp

end

end QueryTemplate
