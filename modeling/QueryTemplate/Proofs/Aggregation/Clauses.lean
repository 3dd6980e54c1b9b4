import QueryTemplate.Proofs.Aggregation.Alias
import QueryTemplate.Proofs.Query.Filled
namespace QueryTemplate

open Token Grammar Fragment

variable {c : Clause} {n : Bool} {f g : Fragment} {a b ts us : List Token} {k t : Token} {q r : Query} {s x y : Text} {fs es : List Filling}
  {xs ys : List Text}

theorem ReadsTo.space (h : ReadsTo c n f ts xs) : ReadsTo c n f (space :: ts) xs := by
  obtain ⟨ys, g, h, rfl⟩ := h
  exact ⟨ys, g, .blank rfl h, rfl⟩

/-- Outside of `FROM` it does not matter whether a clause holds an item already. -/
theorem Reads.anywhere (hc : c ≠ .source) (h : Reads c n f ts xs g) (m : Bool) : Reads c m f ts xs g := by
  induction h generalizing m with
  | nil => exact .nil
  | blank ht _ ih => exact .blank ht (ih m)
  | token ht _ ih => exact .token ⟨ht.kind, ht.inner, ht.conjunction, fun _ e ↦ absurd e hc⟩ (ih m)
  | comma ht hf _ ih => exact .comma ht hf (ih _)
  | conjunction ht hp hf _ ih => exact .conjunction ht hp hf (ih m)
  | member ht hg ho he hb hq _ ih => exact .member ht hg ho he hb hq (ih m)
  | alone ht ho _ ih => exact .alone ht ho (ih m)
  | raw e => exact absurd e hc

/-- No word after the keyword of a clause makes it another one; only `WITH` can belong to a clause before it. -/
theorem leadingWords_title (hc : c ∈ Clause.keywordClauses) (hw : c ≠ .slot .bindings) : leadingWords c.title.text ∈ fixedPhrases := by
  rcases List.mem_cons.1 ((title_spec c hc).1.clause_words rfl) with h | h
  · have hfirst : ∀ c ∈ Clause.keywordClauses, c ≠ .slot .bindings →
        Text.lower (c.title.text.takeWhile Text.isNameChar) ≠ "with".toList := by decide +kernel
    obtain ⟨us, hu⟩ := leadingWords_eq_cons c.title.text
    exact absurd (List.cons.inj (hu.symm.trans h)).1 (hfirst c hc hw)
  · exact List.mem_cons_of_mem _ (List.mem_cons_of_mem _ h)

namespace Aggregation

/-- A text that is read as the query `q`. -/
def Statement (s : Text) (q : Query) : Prop := ∃ ts, textOf ts = s ∧ IsRun ts ∧ parseTokens [] ts {} = .ok q

/-- A text behind an expression that goes on with clauses. -/
def Clauses (s : Text) (fs : List Filling) : Prop :=
  ∃ k ts, textOf (space :: k :: ts) = s ∧ k.kind = .clause ∧ IsRun (space :: k :: ts) ∧ Fills (k :: ts) fs

/-- A text that a clause can have after its keyword: it is read as the items `xs`. -/
def Content (c : Clause) (s : Text) (xs : List Text) : Prop :=
  ∃ ts, textOf ts = s ∧ IsRun ts ∧ (∀ t ∈ ts.head?, t.isBlank = false) ∧ ReadsTo c false {} ts xs

/-- A text that can be an alias. -/
def Alias (s : Text) : Prop := ∃ t, IsAlias t ∧ t.text = s

theorem alias_t : Alias "t" := ⟨nameToken "t", IsBareName.alias (by decide), rfl⟩

namespace Content

/-- The text of a clause that a query is read from. -/
theorem part {p : Token × List Token} (h : IsPart c p) (hl : Lexed p.2) (ho : opensComment p.2 = false)
    (hr : ReadsTo c false {} (core p.2) xs) : Content c (Text.trim (textOf p.2)) xs :=
  ⟨core p.2, (tokens?_eq_ok_iff.1 (tokens_trim hl h.code)).1, isRun_core hl h.code ho h.balanced h.inked, head_core, hr⟩

theorem pushes (h : IsAlias t) : Pushes c n {} t := by
  rcases kind_of_isName h.name with hk | hk
  all_goals exact ⟨by simp [hk], by simp [hk, isComma], by simp [hk], fun e ↦ by simp [isOpenParen, hk] at e⟩

theorem take? (h : IsAlias t) : (Fragment.pushToken t {}).take? = some t.text := by
  have hlex : Lexical t := ⟨[], h.lexed⟩
  have hx : (Fragment.pushToken t {}).text = t.text := rfl
  rw [(trimmed_empty.pushToken hlex h.kind.2 (code_of_flat h.flat)).take?, hx, if_neg hlex.text_ne_nil]

/-- A name by itself. -/
theorem name (h : Alias x) : Content c x [x] := by
  obtain ⟨t, ht, rfl⟩ := h
  exact ⟨[t], by simp, ht.term.toIsRun, ht.term.head, [], _, .token (pushes ht) .nil, by simp [take? ht]⟩

/-- A name before others. -/
theorem cons (hc : c ≠ .source ∧ c ≠ .slot .condition) (hx : Alias x) (h : Content c y xs) :
    Content c (x ++ ", " ++ y) (x :: xs) := by
  obtain ⟨t, ht, rfl⟩ := hx
  obtain ⟨ts, rfl, hrun, hb, zs, g, hr, rfl⟩ := h
  have hspace : IsRun (space :: ts) := hrun.cons (by decide) (.inl (by decide)) (hrun.lexed.space_cons hb)
  have hcomma : IsRun (comma :: space :: ts) := hspace.cons (by decide) (.inl (by decide)) hspace.lexed.comma_cons
  have hlex : Lexed (t :: comma :: space :: ts) :=
    ht.lexed_cons hcomma.lexed (fun c e ↦ Option.some.inj e ▸ by decide) (fun c e ↦ Option.some.inj e ▸ by decide) (ahead_comma _)
  have hbal : (Fragment.pushToken t {}).isBalanced = true := by
    simp [Fragment.isBalanced, Fragment.pushToken, not_paren_of_flat ht.flat]
  have hread := Reads.comma (c := c) (n := false) (t := comma) rfl hbal (.blank (t := space) rfl (hr.anywhere hc.1 _))
  rw [take? ht, if_neg hc.2] at hread
  exact ⟨_, by simp [comma, space], hcomma.cons (not_paren_of_flat ht.flat) (.inl ht.ne_slash) hlex,
    fun u hu ↦ Option.some.inj hu ▸ by simpa [Token.isBlank] using ht.kind.2, _, g, .token (pushes ht) hread, by simp⟩

end Content

/-- A list of expressions is read after `SELECT`. -/
theorem IsTerm.exists_readsTo (h : IsTerm ts) : ∃ xs, ReadsTo (.slot .select) false {} ts xs := by
  let d : Draft := ⟨Query.assign {} [] (.slot .select), .slot .select, {}⟩
  obtain ⟨q, hq⟩ := Draft.Leaves.exists_query (d := d) ⟨rfl, rfl⟩ h.balanced fun t ht ↦ (h.simple t ht).2
  have hfaces : d.Faces (.slot .select) false 0 ts :=
    ⟨⟨rfl, nofun⟩, trimmed_empty, rfl, h.balanced, h.covered, fun t ht ↦ ⟨h.lexed.lexical t ht, h.code ht⟩, nofun⟩
  obtain ⟨ys, g, hr⟩ := hfaces.exists_reads noGroup_nil (by rwa [List.append_nil])
  exact ⟨_, ys, g, hr, rfl⟩

theorem ahead_of_clause (h : IsRun (space :: k :: ts)) (hk : k.kind = .clause) : ahead (space :: k :: ts) = [] :=
  (ahead_blank rfl _).trans (h.lexed.tail.ahead_clause hk)

namespace Clauses

theorem append (hx : Clauses x fs) (hy : Clauses y es) : Clauses (x ++ y) (fs ++ es) := by
  obtain ⟨k, a, rfl, hk, ha, hfa⟩ := hx
  obtain ⟨l, b, rfl, hl, hb, hfb⟩ := hy
  have hrun := ha.append hb (sealed_blank rfl _) (.inl (ahead_of_clause hb hl))
  refine ⟨k, a ++ space :: l :: b, by simp, hk, hrun, ?_⟩
  exact Fills.append hfa (Fills.blank hfb rfl) fun us _ ↦ (noGroup_blank rfl _).2
    ((noGroup_cons (by simp [Token.isBlank, hl]) _).2 (by simp [isOpenParen, hl]))

/-- A keyword before a run of tokens. -/
theorem run (hc : c ∈ Clause.keywordClauses) (hw : c ≠ .slot .bindings) (h : IsRun ts) (hb : ∀ t ∈ ts.head?, t.isBlank = false) :
    IsRun (space :: c.title :: space :: ts) := by
  have hl : Lexed (c.title :: space :: ts) := (title_spec c hc).1.before_space ⟨nofun, nofun⟩ (fun _ ↦ leadingWords_title hc hw) h.lexed hb
  have hspace : IsRun (space :: ts) := h.cons (by decide) (.inl (by decide)) (h.lexed.space_cons hb)
  have htitle : IsRun (c.title :: space :: ts) := hspace.cons (by simp [Clause.title, isOpenParen, isCloseParen]) (.inr (by simp [space])) hl
  exact htitle.cons (by decide) (.inl (by decide)) (hl.space_cons fun t ht ↦ Option.some.inj ht ▸ rfl)

theorem content (hc : c ∈ Clause.keywordClauses) (hw : c ≠ .slot .bindings) (h : Content c x xs) : Clauses (' ' :: c.title.text ++ ' ' :: x) [.items c xs] := by
  obtain ⟨ts, rfl, hrun, hb, hr⟩ := h
  have hfill : Fills (c.title :: space :: ts) [.items c xs] :=
    fills_items rfl (title_spec c hc).2.1 (hr.space) hrun.balanced
  exact ⟨c.title, space :: ts, by simp [space], rfl, run hc hw hrun hb, hfill⟩

/-- A clause that may be missing. -/
theorem optional (hc : c ∈ Clause.keywordClauses) (hw : c ≠ .slot .bindings) {o : Option Text} {ys : Option (List Text)}
    (hs : Clauses s fs) (h : Option.Rel (Content c) o ys) :
    Clauses (s ++ Tail.clause c.title.text o) (fs ++ (ys.map (.items c)).toList) := by
  cases h with
  | none => simpa [Tail.clause] using hs
  | some h => exact hs.append (content hc hw h)

/-- A statement in parentheses as the source. -/
theorem source (h : Statement s r) : Clauses (" FROM (" ++ s ++ ")") [.subquery r []] := by
  obtain ⟨ts, rfl, hrun, hr⟩ := h
  have hfill : Fills (Clause.source.title :: ([space] ++ openParen :: (ts ++ closeParen :: []))) [.subquery r []] :=
    fills_subquery rfl (title_spec .source (by decide)).2.1 (by decide) rfl rfl hrun.balanced hr ⟨[], {}, .nil, rfl⟩ rfl
  refine ⟨Clause.source.title, space :: openParen :: (ts ++ [closeParen]), ?_, rfl, run (by decide) (by decide) hrun.enclosed ?_, hfill⟩
  · have htitle : Clause.source.title.text = "FROM".toList := by decide
    simp [space, htitle, openParen, closeParen]
  · exact fun t ht ↦ Option.some.inj ht ▸ rfl

/-- Expressions in front of clauses make a statement. -/
theorem select (hx : Term x) (hs : Clauses s fs) (ho : (.slot .select :: fs.map Filling.clause).Sublist Clause.printOrder) :
    ∃ ys, Statement ("SELECT " ++ x ++ s) (Query.puts {} (.items (.slot .select) ys :: fs)) := by
  obtain ⟨a, rfl, ha⟩ := hx
  obtain ⟨k, b, rfl, hk, hb, hfb⟩ := hs
  obtain ⟨ys, hr⟩ := ha.exists_readsTo
  have hselect : (Clause.slot .select).title.text = "SELECT".toList := by decide
  have hrun : IsRun (space :: (Clause.slot .select).title :: space :: a) := run (by decide) (by decide) ha.toIsRun ha.head
  have hfa : Fills ((Clause.slot .select).title :: space :: a) [.items (.slot .select) ys] :=
    fills_items rfl (title_spec _ (by decide)).2.1 hr.space ha.balanced
  have hfill : Fills ((Clause.slot .select).title :: space :: a ++ space :: k :: b) ([.items (.slot .select) ys] ++ fs) :=
    hfa.append (Fills.blank hfb rfl) fun us _ ↦ (noGroup_blank rfl _).2
      ((noGroup_cons (by simp [Token.isBlank, hk]) _).2 (by simp [isOpenParen, hk]))
  refine ⟨ys, (Clause.slot .select).title :: space :: a ++ space :: k :: b, by simp [space, hselect], ?_, ?_⟩
  · have hstart : IsRun ((Clause.slot .select).title :: space :: a) :=
      ⟨hrun.lexed.tail, by simpa using hrun.last, hrun.opener, hrun.balanced⟩
    exact hstart.append hb (sealed_blank rfl _) (.inl (ahead_of_clause hb hk))
  · have := hfill.parse Draft.ends_empty (accepts_of_sublist ho) (show ∀ g ∈ ([] : List Token), g.isBlank = true from List.forall_mem_nil _)
    rwa [List.append_nil] at this

end Clauses
end Aggregation
end QueryTemplate
