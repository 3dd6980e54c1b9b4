import QueryTemplate.Proofs.Join.Attach
import QueryTemplate.Proofs.Join.Where
namespace QueryTemplate

open Token Fragment Grammar

variable {a b us ts z : List Token} {t : Token} {c : Clause} {n : Bool} {f g : Fragment}
    {xs items : List Text} {indent : Text} {d : Nat}
  {last : Text}

/-- Tokens without `IN` that stand before the tokens `z`. -/
structure Sited (ts z : List Token) : Prop where
  material : Material ts
  members : ∀ t ∈ ts, t.kind ≠ .membership
  comments : ∀ t ∈ z, t.kind ≠ .comment
  lexed : Lexed (ts ++ z)

theorem innerLevels_of_members (h : ∀ t ∈ ts, t.kind ≠ .membership) :
    innerLevels false d last ts = [] := by
  induction ts generalizing d last with
  | nil => rw [innerLevels]
  | cons t ts ih =>
    obtain ⟨ht, h⟩ := List.forall_mem_cons.1 h
    cases hb : t.isBlank with
    | true => rw [innerLevels_blank hb, ih h]
    | false => exact (innerLevels_token (by simpa [Token.isBlank] using hb) ht fun e ↦ by
      cases e).trans (ih h)

namespace Sited

theorem left (h : Sited (a ++ b) z) : Sited a (b ++ z) where
  material := h.material.left
  members t ht := h.members t (List.mem_append_left _ ht)
  comments := List.forall_mem_append.2 ⟨fun t ht ↦ (h.material.right.firm t ht).2.1, h.comments⟩
  lexed := by simpa using h.lexed

theorem right (h : Sited (a ++ b) z) : Sited b z where
  material := h.material.right
  members t ht := h.members t (List.mem_append_right _ ht)
  comments := h.comments
  lexed := by
    have := h.lexed
    rw [List.append_assoc] at this
    exact this.suffix

theorem tail (h : Sited (t :: ts) z) : Sited ts z := h.right (a := [t])

/-- The tokens of a list of items or of predicates. -/
theorem pending (h : Sited ts z) (hz : ahead z = []) (hp : IsPhrase ts)
    (hc : c = .slot .select ∨ c = .slot .condition) :
    Pending c false {} none 0 ts where
  ends := endsIn_empty
  depth := rfl
  balanced := hp.1
  covered := hp.2.mono fun t ht ↦ by rw [endsExpression, ht, Bool.true_or]
  commas hx := by rcases hc with rfl | rfl <;> simp at hx
  tokens := h.material.firm
  calm := .inr h.members
  lexed := ⟨z, hz, h.comments, h.lexed⟩
  apart := h.material.apart
  start hx := by rcases hc with rfl | rfl <;> cases hx
  levels b hb := by
    have hs : decide (c = .source) = false := by rcases hc with rfl | rfl <;> rfl
    rw [hs, innerLevels_of_members h.members] at hb
    cases hb

end Sited

theorem Reads.tallied (h : Reads c n f ts xs g) (hc : c ≠ .source) (hf : f.Tallied false)
    (ht : Firm ts) (hm : ∀ t ∈ ts, t.kind ≠ .membership) :
    (∀ x ∈ xs, ∃ m, tally false x = some (m, false)) ∧ g.Tallied false := by
  have htake : ∀ {f : Fragment}, f.Tallied false →
    ∀ x ∈ f.take?.toList, ∃ m, tally false x = some (m, false) :=
    fun hf x hx ↦ ⟨_, (take?_total hf).2 x hx⟩
  induction h with
  | nil => exact ⟨nofun, hf⟩
  | blank _ _ ih => exact ih hf (List.forall_mem_cons.1 ht).2 (List.forall_mem_cons.1 hm).2
  | @token n f t ts xs g hp _ ih =>
    obtain ⟨⟨hl, hs⟩, ht⟩ := List.forall_mem_cons.1 ht
    exact ih (hf.pushToken hl hp.kind.1 hs.1) ht (List.forall_mem_cons.1 hm).2
  | comma _ _ _ ih =>
    obtain ⟨h₁, h₂⟩ := ih tallied_empty (List.forall_mem_cons.1 ht).2 (List.forall_mem_cons.1 hm).2
    refine ⟨List.forall_mem_append.2 ⟨List.forall_mem_append.2 ⟨htake hf, ?_⟩, h₁⟩, h₂⟩
    split
    · exact List.forall_mem_singleton.2 ⟨0, tally_of_loose (by decide)⟩
    · exact nofun
  | conjunction hk _ _ _ ih =>
    obtain ⟨⟨hl, hs⟩, ht⟩ := List.forall_mem_cons.1 ht
    obtain ⟨h₁, h₂⟩ := ih (tallied_empty.pushToken hl (by simp [hk]) hs.1) ht
      (List.forall_mem_cons.1 hm).2
    exact ⟨List.forall_mem_append.2 ⟨htake hf, h₁⟩, h₂⟩
  | member hk => exact absurd hk (hm _ List.mem_cons_self)
  | alone hk => exact absurd hk (hm _ List.mem_cons_self)
  | raw hs => exact absurd hs hc

theorem tally_title (hc : c ∈ Clause.keywordClauses) :
    tally false c.title.text = some (0, false) := by
  have hl : tally false c.title.text = _ := tally_lexical ⟨[], (title_spec c hc).1⟩ rfl
  rwa [weight_of_kind (by simp [Clause.title]) (by simp [Clause.title])] at hl

/-- Items of a clause are printed in lines that end in no comment. -/
theorem ReadsTo.adds_lines (h : ReadsTo c n {} ts items) (hc : c ∈ Clause.keywordClauses)
    (hs : c ≠ .source) (ht : Firm ts) (hm : ∀ t ∈ ts, t.kind ≠ .membership) (hi : IsIndent indent) :
    ∃ m, Adds (Query.listLines indent c items) m := by
  obtain ⟨ys, g, hr, rfl⟩ := h
  obtain ⟨h₁, h₂⟩ := hr.tallied hs tallied_empty ht hm
  have hitems : Adds (ys ++ g.take?.toList) _ :=
    ⟨List.forall_mem_append.2 ⟨h₁, fun x hx ↦ ⟨_, (take?_total h₂).2 x hx⟩⟩, rfl⟩
  rw [Query.listLines]
  split
  · exact ⟨_, Adds.clauseLines hi hitems.foldMarkers (.inl rfl) (tally_title hc)⟩
  · exact ⟨_, Adds.clauseLines hi hitems (.inr rfl) (tally_title hc)⟩

theorem covered_commaList {p : Token → Bool} {x : List Token} {ys : List (List Token)}
    (hp : p comma = false) (h : ∀ y ∈ x :: ys, Balanced y ∧ Covered p 0 y) :
    Covered p 0 (commaList x ys) := by
  induction ys generalizing x with
  | nil => simpa [commaList] using (h x List.mem_cons_self).2
  | cons y ys ih =>
    obtain ⟨⟨hb, hc⟩, h⟩ := List.forall_mem_cons.1 h
    have hcomma : standing 0 comma = 0 ∧ after 0 comma = 0 := by decide
    rw [commaList_cons, covered_append, depthAfter_of_depthRun hb, List.singleton_append,
      covered_cons, hcomma.1, hcomma.2]
    exact ⟨hc, fun _ ↦ hp, ih h⟩

theorem IsList.isPhrase (h : IsList ts) : IsPhrase ts := by
  obtain ⟨x, ys, rfl, h⟩ := h
  exact ⟨balanced_commaList fun y hy ↦ (h y hy).1.2.1,
    covered_commaList rfl fun y hy ↦ (h y hy).1.2⟩

/-- Neither a list nor what stands for it starts with a comma. -/
theorem IsList.noComma (h : IsList (inked ts)) : NoComma ts := by
  obtain ⟨x, ys, hx, h⟩ := h
  obtain ⟨⟨hne, -⟩, hc⟩ := h x List.mem_cons_self
  obtain ⟨t, x, rfl⟩ := List.exists_cons_of_ne_nil hne
  obtain ⟨gs, vs, rfl, hg, hb, -⟩ := exists_of_inked_eq_cons hx
  rw [NoComma, List.dropWhile_append_of_pos hg, List.dropWhile_cons_of_neg (by simp [hb])]
  intro u hu
  obtain rfl := Option.some.inj hu
  by_contra hcomma
  rw [Bool.not_eq_false] at hcomma
  have := (covered_cons.1 hc).1 (by rw [eq_comma hcomma]; rfl)
  rw [hcomma] at this
  cases this

/-- A clause that is printed so that it is read again, in lines that end in no comment. -/
structure Renders (ts : List Token) (x : Filling) : Prop where
  prints : Prints ts [x]
  lines : ∀ indent, IsIndent indent → ∃ m, Adds (x.lines indent) m

theorem exists_renders_select (ht : t.isClause "select" = true) (h : Sited (t :: ts) z)
    (hz : ahead z = []) (hi : IsList (inked ts)) :
    ∃ items, Renders (t :: ts) (.items (.slot .select) items) ∧ items ≠ [] := by
  simp only [isClause, Bool.and_eq_true, decide_eq_true_eq] at ht
  obtain ⟨hk, hkey⟩ := ht
  have hw : Clause.ofKeyword? t.keyword = some (.slot .select) := by
    rw [hkey]
    decide
  have hp := hi.isPhrase.of_inked
  obtain ⟨items, cells, hlist, hne⟩ :=
    exists_listed_of_noComma (h.tail.pending hz hp (.inl rfl)) hi.noComma
  refine ⟨items, ⟨hlist.prints hw hk (h.material.firm t List.mem_cons_self).1 hp.1
    (.inl hi.noComma), fun indent hd ↦ ?_⟩, hne fun e ↦ ?_⟩
  · exact hlist.reads.adds_lines (by decide) (by decide) h.tail.material.firm h.tail.members hd
  · obtain ⟨x, ys, hx, hxs⟩ := hi
    have hnil : inked ts = [] := by simpa [inked] using List.dropWhile_eq_nil_iff.1 e
    rw [hnil] at hx
    exact (hxs x List.mem_cons_self).1.1 (List.append_eq_nil_iff.1 hx.symm).1

theorem exists_renders_where (ht : t.isClause "where" = true) (h : Sited (t :: ts) z)
    (hz : ahead z = []) (hp : IsPhrase (inked ts)) :
    ∃ items, Renders (t :: ts) (.items (.slot .condition) items) := by
  obtain ⟨items, k, cells, hlist⟩ := exists_listed (h.tail.pending hz hp.of_inked (.inr rfl))
  refine ⟨items, hlist.prints_where ht (h.material.firm t List.mem_cons_self).1 hp.of_inked.1,
    fun indent hi ↦ ?_⟩
  exact hlist.reads.adds_lines (by decide) (by decide) h.tail.material.firm h.tail.members hi

end QueryTemplate
