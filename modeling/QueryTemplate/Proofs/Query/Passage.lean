import QueryTemplate.Proofs.Query.Assign
import QueryTemplate.Proofs.Query.ItemText
namespace QueryTemplate

open Token Fragment Grammar Formula

/-- Commas, `AND` and `OR`, which end an item outside of parentheses. -/
def endsItem (t : Token) : Bool := t.isComma || t.kind = .conjunction

/-- An expression with comments: in what it says, parentheses match, and nothing outside of them
ends an item. -/
structure IsExpr (x : List Token) : Prop where
  kinds : ∀ t ∈ codeOf x, t.kind ∈ exprKinds
  bang : ∀ t ∈ codeOf x, t.text ≠ ['!']
  balanced : Balanced (codeOf x)
  inner : Covered endsItem 0 (codeOf x)
  abutting : Abutting (inked x)

/-- An expression that is more than comments. -/
structure IsItem (x : List Token) : Prop extends IsExpr x where
  code : codeOf x ≠ []

instance (x : List Token) : Decidable (IsExpr x) :=
  decidable_of_iff ((∀ t ∈ codeOf x, t.kind ∈ exprKinds) ∧ (∀ t ∈ codeOf x, t.text ≠ ['!']) ∧
    Balanced (codeOf x) ∧
      Covered endsItem 0 (codeOf x) ∧ Abutting (inked x))
    ⟨fun ⟨a, b, c, d, e⟩ ↦ ⟨a, b, c, d, e⟩, fun ⟨a, b, c, d, e⟩ ↦ ⟨a, b, c, d, e⟩⟩

instance (x : List Token) : Decidable (IsItem x) :=
  decidable_of_iff (IsExpr x ∧ codeOf x ≠ []) ⟨fun ⟨a, b⟩ ↦ ⟨a, b⟩, fun ⟨a, b⟩ ↦ ⟨a, b⟩⟩

/-- A predicate after the first one starts with `AND` or `OR`. -/
def IsConjunct (x : List Token) : Prop := ∃ t y, x = t :: y ∧ t.kind = .conjunction ∧ IsItem y

instance : (x : List Token) → Decidable (IsConjunct x)
  | [] => isFalse fun ⟨_, _, e, _⟩ ↦ by cases e
  | t :: y =>
    decidable_of_iff (t.kind = .conjunction ∧ IsItem y)
      ⟨fun ⟨a, b⟩ ↦ ⟨t, y, rfl, a, b⟩, fun ⟨_, _, e, a, b⟩ ↦ by cases e; exact ⟨a, b⟩⟩

/-- A clause keyword and the tokens of the items after it. -/
structure Passage where
  clause : Clause
  heading : Token
  items : List (List Token)

/-- Runs of tokens with `sep` between neighbours. -/
def separated (sep : List Token) : List (List Token) → List Token
  | [] => []
  | [x] => x
  | x :: y :: r => x ++ sep ++ separated sep (y :: r)

namespace Passage

def separator (p : Passage) : List Token := if p.clause.isPredicate then [] else [comma]

def tokens (p : Passage) : List Token := p.heading :: separated p.separator p.items

structure WellFormed (p : Passage) : Prop where
  heading : p.heading.kind = .clause ∧ Clause.ofKeyword? p.heading.keyword = some p.clause
  ne : p.items ≠ []
  head : ∀ x ∈ p.items.head?, IsItem x
  tail : ∀ x ∈ p.items.tail, if p.clause.isPredicate then IsConjunct x else IsItem x
  table : p.clause = .source → ∀ x ∈ p.items, ∀ t ∈ codeOf x, t.kind ≠ .opening

instance (p : Passage) : Decidable p.WellFormed :=
  decidable_of_iff ((p.heading.kind = .clause ∧
    Clause.ofKeyword? p.heading.keyword = some p.clause) ∧ p.items ≠ [] ∧
      (∀ x ∈ p.items.head?, IsItem x) ∧
        (∀ x ∈ p.items.tail, if p.clause.isPredicate then IsConjunct x else IsItem x) ∧
      (p.clause = .source → ∀ x ∈ p.items, ∀ t ∈ codeOf x, t.kind ≠ .opening))
    ⟨fun ⟨a, b, c, d, e⟩ ↦ ⟨a, b, c, d, e⟩, fun ⟨a, b, c, d, e⟩ ↦ ⟨a, b, c, d, e⟩⟩

end Passage

/-- The clauses of a statement that can follow `FROM`. -/
def laterClauses : List Clause := [.slot .condition, .slot .groupBy, .slot .orderBy]

/-- A statement with `SELECT`, `FROM` and perhaps `WHERE`, `GROUP BY` and `ORDER BY`. -/
structure IsSelect (ps : List Passage) : Prop where
  clauses : ∃ o, o.Sublist laterClauses ∧ ps.map Passage.clause = .slot .select :: .source :: o
  passages : ∀ p ∈ ps, p.WellFormed

instance (ps : List Passage) : Decidable (IsSelect ps) :=
  decidable_of_iff (((ps.map Passage.clause).drop 2).Sublist laterClauses ∧
      ps.map Passage.clause = .slot .select :: .source :: (ps.map Passage.clause).drop 2 ∧
        ∀ p ∈ ps, p.WellFormed)
    ⟨fun ⟨a, b, c⟩ ↦ ⟨⟨_, a, b⟩, c⟩, fun ⟨⟨_, a, b⟩, c⟩ ↦ ⟨by rw [b]; exact a, by rw [b]; rfl, c⟩⟩

/-- The tokens of a statement. -/
def statement (ps : List Passage) : List Token := ps.flatMap Passage.tokens

section

variable {t : Token} {x ts us : List Token}

theorem mem_codeOf : t ∈ codeOf ts ↔ t ∈ ts ∧ t.kind ≠ .blank ∧ t.kind ≠ .comment := by
  simp [codeOf]

theorem mem_inked : t ∈ inked ts ↔ t ∈ ts ∧ t.kind ≠ .blank := by
  simp [inked, Token.isBlank]

theorem IsItem.kind (h : IsItem x) (ht : t ∈ x) (hb : t.kind ≠ .blank) :
    t.kind = .comment ∨ t.kind ∈ exprKinds := by
  by_cases hc : t.kind = .comment
  · exact .inl hc
  · exact .inr (h.kinds t (mem_codeOf.2 ⟨ht, hb, hc⟩))

theorem codeOf_inked (ts : List Token) : codeOf (inked ts) = codeOf ts := by
  rw [codeOf, inked, List.filter_filter]
  refine List.filter_congr fun t _ ↦ ?_
  cases h : t.isBlank <;> simp_all [Token.isBlank]

/-- An identifier in an item is followed by no word. -/
theorem ahead_after_item (hx : ∀ u ∈ x, u.kind ≠ .blank → u.kind = .comment ∨ u.kind ∈ exprKinds)
    (ht : t.isOperand = true) (ha : Abutting (t :: inked x)) (h : Lexed (x ++ us))
    (hu : ahead us = []) :
    ahead (x ++ us) = [] := by
  induction x with
  | nil => exact hu
  | cons u x ih =>
    cases hb : u.isBlank with
    | true =>
      rw [inked_cons_blank hb] at ha
      rw [List.cons_append, ahead_blank hb]
      exact ih (fun v hv ↦ hx v (List.mem_cons_of_mem _ hv)) ha h.tail
    | false =>
      rw [inked_cons hb] at ha
      obtain ⟨⟨ho, -⟩, -⟩ := ha
      by_cases hk : u.kind = .conjunction
      · exact h.ahead_conjunction hk
      have hf : ∀ k ∈ Kind.comment :: exprKinds, k ≠ .conjunction → k ≠ .identifier →
          family k ≠ .identifier := by decide
      have hub : u.kind ≠ .blank := by simpa [Token.isBlank] using hb
      have huo := ho (by rw [ht]; rfl)
      refine ahead_symbol hb (Bool.eq_false_iff.2 fun hw ↦ ?_) _
      refine hf u.kind (List.mem_cons.2 (hx u List.mem_cons_self hub)) hk (fun e ↦ ?_)
        (h.isWord_iff.1 hw)
      simp [Token.isOperand, e] at huo

/-- The tokens of an item are read alone if nothing goes on with a phrase after it. -/
theorem alone_of_lexed (hx : ∀ u ∈ x, u.kind ≠ .blank → u.kind = .comment ∨ u.kind ∈ exprKinds)
    (ha : Abutting (inked x)) (h : Lexed (x ++ us)) (hu : ahead us = []) :
    ∀ t ∈ inked x, Lexed [t] := by
  induction x with
  | nil => exact fun t ht ↦ by cases ht
  | cons t x ih =>
    have hx' : ∀ u ∈ x, u.kind ≠ .blank → u.kind = .comment ∨ u.kind ∈ exprKinds :=
      fun u hu ↦ hx u (List.mem_cons_of_mem _ hu)
    cases hb : t.isBlank with
    | true =>
      rw [inked_cons_blank hb] at ha ⊢
      exact ih hx' ha h.tail
    | false =>
      rw [inked_cons hb] at ha ⊢
      have htb : t.kind ≠ .blank := by simpa [Token.isBlank] using hb
      refine List.forall_mem_cons.2 ⟨h.alone htb fun hw ↦ ?_, ih hx' ha.tail h.tail⟩
      by_cases hc : t.kind = .conjunction
      · exact .inl (h.conjunction_fixed hc)
      · have hid : ∀ k ∈ Kind.comment :: exprKinds, k ≠ .conjunction → family k = .identifier →
            k = .identifier := by decide
        have hk := hid t.kind (List.mem_cons.2 (hx t List.mem_cons_self htb)) hc (h.isWord_iff.1 hw)
        exact .inr (ahead_after_item hx' (by simp [Token.isOperand, hk]) ha h.tail hu)

theorem IsItem.inline (h : IsItem x) (hl : Lexed (x ++ us)) (hu : ahead us = []) :
    Inline (inked x) where
  alone := alone_of_lexed (fun _ ht hb ↦ h.kind ht hb) h.abutting hl hu
  kinds t ht := by
    obtain ⟨ht, hb⟩ := mem_inked.1 ht
    exact h.kind ht hb
  bang t ht hk := by
    obtain ⟨ht, hb⟩ := mem_inked.1 ht
    exact h.bang t (mem_codeOf.2 ⟨ht, hb, by simp [hk]⟩)
  abutting := h.abutting

theorem IsConjunct.inline (h : IsConjunct x) (hl : Lexed (x ++ us)) (hu : ahead us = []) :
    Inline (inked x) := by
  obtain ⟨t, y, rfl, ht, hy⟩ := h
  have hi := hy.inline hl.tail hu
  rw [inked_cons (by simp [Token.isBlank, ht])]
  refine ⟨List.forall_mem_cons.2 ⟨?_, hi.alone⟩,
    List.forall_mem_cons.2 ⟨.inr (by rw [ht]; decide), hi.kinds⟩,
    List.forall_mem_cons.2 ⟨fun hk ↦ absurd (ht.symm.trans hk) (by decide), hi.bang⟩, ?_⟩
  · exact hl.alone (by simp [ht]) fun _ ↦ .inl (hl.conjunction_fixed ht)
  · cases hin : inked y with
    | nil => trivial
    | cons u l =>
      have ha := hi.abutting
      rw [hin] at ha
      exact ⟨⟨by simp [Token.isOperand, ht], by simp [ht], fun _ ↦ by simp [isPoint, ht]⟩, ha⟩

theorem codeOf_cons_code (hb : t.kind ≠ .blank) (hc : t.kind ≠ .comment) (ts : List Token) :
    codeOf (t :: ts) = t :: codeOf ts := List.filter_cons_of_pos (by simp [hb, hc])

theorem codeOf_cons_other (h : t.kind = .blank ∨ t.kind = .comment) (ts : List Token) :
    codeOf (t :: ts) = codeOf ts :=
  List.filter_cons_of_neg (by simpa [Classical.or_iff_not_imp_left] using h)

theorem depthRun_codeOf (d : Nat) (ts : List Token) : depthRun d (codeOf ts) = depthRun d ts := by
  induction ts generalizing d with
  | nil => rfl
  | cons t ts ih =>
    by_cases h : t.kind = .blank ∨ t.kind = .comment
    · have ho : t.isOpenParen = false ∧ t.isCloseParen = false := by
        rcases h with h | h <;> simp [isOpenParen, isCloseParen, h]
      rw [codeOf_cons_other h, ih]
      simp only [depthRun, ho, Bool.false_eq_true, if_false]
    · obtain ⟨hb, hc⟩ := not_or.1 h
      rw [codeOf_cons_code hb hc]
      simp only [depthRun, ih]

theorem covered_codeOf (d : Nat) (ts : List Token) :
    Covered endsItem d (codeOf ts) ↔ Covered endsItem d ts := by
  rw [Covered, sections_codeOf fun t ht ↦ ?_, Covered, List.map_eq_nil_iff]
  simp only [endsItem, isComma, Bool.or_eq_true, Bool.and_eq_true, decide_eq_true_eq] at ht
  rcases ht with ⟨ht, -⟩ | ht <;> simp [ht]

end

theorem separated_nil (xs : List (List Token)) : separated [] xs = xs.flatten := by
  fun_induction separated [] xs with
  | case1 => rfl
  | case2 x => simp
  | case3 x y r ih => simp [ih]

section

variable {ps : List Passage} {xs : List (List Token)} {us : List Token}

theorem IsSelect.sublist (h : IsSelect ps) :
    (ps.map Passage.clause).Sublist (.slot .select :: .source :: laterClauses) := by
  obtain ⟨o, ho, e⟩ := h.clauses
  rw [e]
  exact (ho.cons_cons _).cons_cons _

theorem IsSelect.nodup (h : IsSelect ps) : (ps.map Passage.clause).Nodup :=
  h.sublist.nodup (by decide)

theorem IsSelect.isListed (h : IsSelect ps) : ∀ p ∈ ps, p.clause.isListed = true := by
  intro p hp
  have hall : ∀ c ∈ Clause.slot .select :: .source :: laterClauses, c.isListed = true := by decide
  exact hall _ (h.sublist.mem (List.mem_map_of_mem hp))

theorem inline_list (hx : ∀ x ∈ xs, IsItem x) (hl : Lexed (separated [comma] xs ++ us))
    (hu : ahead us = []) :
    ∀ x ∈ xs, Inline (inked x) := by
  fun_induction separated [comma] xs with
  | case1 => nofun
  | case2 x => exact List.forall_mem_singleton.2 ((hx x (List.mem_singleton.2 rfl)).inline hl hu)
  | case3 x y r ih =>
    obtain ⟨hx, hxs⟩ := List.forall_mem_cons.1 hx
    rw [List.append_assoc, List.append_assoc] at hl
    exact List.forall_mem_cons.2 ⟨hx.inline hl (ahead_comma _), ih hxs hl.suffix.suffix⟩

theorem inline_conjuncts (hx : ∀ x ∈ xs, IsConjunct x) (hl : Lexed (xs.flatten ++ us))
    (hu : ahead us = []) :
    (∀ x ∈ xs, Inline (inked x)) ∧ ahead (xs.flatten ++ us) = [] := by
  induction xs with
  | nil => exact ⟨nofun, hu⟩
  | cons x xs ih =>
    obtain ⟨hx, hxs⟩ := List.forall_mem_cons.1 hx
    rw [List.flatten_cons, List.append_assoc] at hl ⊢
    obtain ⟨h₁, h₂⟩ := ih hxs hl.suffix
    refine ⟨List.forall_mem_cons.2 ⟨hx.inline hl h₂, h₁⟩, ?_⟩
    obtain ⟨t, y, rfl, ht, -⟩ := hx
    exact hl.ahead_conjunction ht

theorem Passage.WellFormed.inline {p : Passage} (h : p.WellFormed) (hl : Lexed (p.tokens ++ us))
    (hu : ahead us = []) :
    ∀ x ∈ p.items, Inline (inked x) := by
  obtain ⟨x, xs, hxs⟩ := List.exists_cons_of_ne_nil h.ne
  have hx := h.head x (by rw [hxs]; rfl)
  have ht := h.tail
  have hl : Lexed (separated p.separator p.items ++ us) := hl.tail
  rw [Passage.separator] at hl
  rw [hxs] at hl ht ⊢
  split at hl
  · rw [separated_nil, List.flatten_cons, List.append_assoc] at hl
    have ht : ∀ x ∈ xs, IsConjunct x := fun x hm ↦ by simpa [*] using ht x hm
    obtain ⟨h₁, h₂⟩ := inline_conjuncts ht hl.suffix hu
    exact List.forall_mem_cons.2 ⟨hx.inline hl h₂, h₁⟩
  · have ht : ∀ x ∈ xs, IsItem x := fun x hm ↦ by simpa [*] using ht x hm
    exact inline_list (List.forall_mem_cons.2 ⟨hx, ht⟩) hl hu

/-- The items of a statement are expressions. -/
theorem IsSelect.inline (h : IsSelect ps) (hl : Lexed (statement ps)) :
    ∀ p ∈ ps, ∀ x ∈ p.items, Inline (inked x) := by
  have key : ∀ qs : List Passage, (∀ p ∈ qs, p.WellFormed) → Lexed (statement qs) →
      ahead (statement qs) = [] ∧ ∀ p ∈ qs, ∀ x ∈ p.items, Inline (inked x) := by
    intro qs
    induction qs with
    | nil => exact fun _ _ ↦ ⟨rfl, nofun⟩
    | cons p qs ih =>
      intro hw hl
      obtain ⟨hp, hw⟩ := List.forall_mem_cons.1 hw
      rw [statement, List.flatMap_cons, ← statement] at hl ⊢
      obtain ⟨h₁, h₂⟩ := ih hw hl.suffix
      exact ⟨hl.ahead_clause hp.heading.1, List.forall_mem_cons.2 ⟨hp.inline hl h₁, h₂⟩⟩
  exact (key ps h.passages hl).2

end

end QueryTemplate
