import QueryTemplate.Proofs.Query.JoinTally
namespace QueryTemplate

open Token Grammar Fragment

variable {lines even : Bool} {w : Query → Int} {C : Query → Prop} {x : Text} {n : Int} {t : Token}
    {d : Draft}

/-- The phrase before a join and the words after its source. -/
structure Join.Worded (lines : Bool) (j : Join Query) : Prop where
  phrase : ∃ t : Token, t.keyword = j.kind ∧ Lexical t ∧ t.kind = .join
  aliases : ∀ x ∈ j.aliases, IsWord lines x
  columns : ∀ x ∈ j.columns, ∃ b, tally lines x = some (0, b)

/-- A macro whose arguments together close their parentheses. -/
structure IsCall (lines : Bool) (w : Query → Int) (c : Text × CallArgs Query) : Prop where
  name : ∃ t : Token, t.text = c.1 ∧ Lexical t ∧ t.kind = .aggregation
  amount : amounts lines w c.2.pieces = 0

/-- The parentheses that the aliases of some joins open, less those they close. -/
def aliasAmount (lines : Bool) (js : List (Join Query)) : Int :=
  (js.map fun j ↦ (j.aliases.map (amount lines)).sum).sum

/-- What holds of a query that was read: each text is put together from tokens, with `even` closes
its own parentheses, and each query of the next level satisfies `C`. -/
structure Query.Sound (lines even : Bool) (w : Query → Int) (C : Query → Prop) (q : Query) :
    Prop where
  pieces : ∀ p ∈ q.pieces, p.Fits lines (Allowed even) C
  calls : ∀ c ∈ q.calls, IsCall lines w c
  joins : ∀ j ∈ q.joins, j.Worded lines
  aliases : q.slots.aliases ≠ none → ∃ r, q.source = some (.subquery r)

/-- The parentheses that the parts of a query open, less those they close. -/
def Query.sum (lines : Bool) (w : Query → Int) (q : Query) : Int :=
  amounts lines w q.pieces + aliasAmount lines q.joins

namespace Draft

/-- What holds of a draft in the course of reading. -/
structure Sound (lines even : Bool) (w : Query → Int) (C : Query → Prop) (d : Draft) : Prop where
  carries : d.Carries lines (Allowed even) C
  calls : ∀ c ∈ d.query.calls, IsCall lines w c
  joins : ∀ j ∈ d.query.joins, j.Worded lines

/-- The parentheses opened less those closed in all that was read. -/
def sum (lines : Bool) (w : Query → Int) (d : Draft) : Int := d.query.sum lines w + d.fragment.depth

theorem sum_eq (d : Draft) : d.sum lines w = d.total lines w + aliasAmount lines d.query.joins := by
  rw [sum, Query.sum, total]
  omega

theorem sound_empty : Sound lines even w C {} := ⟨carries_empty, nofun, nofun⟩

namespace Sound

theorem query (h : d.Sound lines even w C) : d.query.Sound lines even w C :=
  ⟨h.carries.pieces, h.calls, h.joins, fun ha ↦ h.carries.shaped.aliases (.inr ha)⟩

theorem hold (h : d.Sound lines even w C) {f : Fragment} (hf : f.Tallied lines) :
    (d.hold f).Sound lines even w C ∧
      (d.hold f).sum lines w = d.sum lines w + (f.depth - d.fragment.depth) := by
  refine ⟨⟨h.carries.hold hf, h.calls, h.joins⟩, ?_⟩
  have e : (d.hold f).query.sum lines w = d.query.sum lines w := rfl
  have e' : (d.hold f).fragment.depth = f.depth := rfl
  rw [sum, sum, e, e']
  omega

theorem pushToken (h : d.Sound lines even w C) (ht : Lexical t) (hb : t.kind ≠ .blank)
    (hc : t.kind ≠ .comment) :
    (d.pushToken t).Sound lines even w C ∧
      (d.pushToken t).sum lines w = d.sum lines w + t.weight := by
  obtain ⟨h₁, h₂⟩ := h.hold (h.carries.fragment.pushToken ht hb hc)
  refine ⟨h₁, h₂.trans ?_⟩
  rw [pushToken_depth]
  omega

theorem push (h : d.Sound lines even w C) (hx : tally lines x = some (n, false))
    (hn : Allowed even n) :
    (d.push x).Sound lines even w C ∧ (d.push x).sum lines w = d.sum lines w + n := by
  obtain ⟨h₁, h₂, hk⟩ := h.carries.push (w := w) hx hn
  have hj := (push_rest x d).1
  refine ⟨⟨h₁, hk.calls ▸ h.calls, hj ▸ h.joins⟩, ?_⟩
  rw [sum_eq, sum_eq, h₂, hj]
  omega

theorem flush (h : d.Sound lines even w C) (hz : Allowed even d.fragment.depth) :
    d.flush.Sound lines even w C ∧ d.flush.sum lines w = d.sum lines w ∧ Keeps d d.flush := by
  obtain ⟨h₁, h₂, hk⟩ := h.carries.flush (w := w) (fun _ _ ↦ Allowed.add) hz
  have hj := d.flush_rest.1
  refine ⟨⟨h₁, hk.calls ▸ h.calls, hj ▸ h.joins⟩, ?_, hk⟩
  rw [sum_eq, sum_eq, h₂, hj]

theorem openClause {c : Clause} (h : d.Sound lines even w C) (hz : Allowed even d.fragment.depth)
    (hc : c ∈ Clause.keywordClauses) (hn : d.query.has c = false) :
    (d.openClause c).Sound lines even w C ∧ (d.openClause c).sum lines w = d.sum lines w := by
  obtain ⟨h₁, h₂, hk⟩ := h.flush hz
  have hcall : ∀ n, c ≠ .call n := by
    rintro n rfl
    simp [Clause.keywordClauses] at hc
  have hsource : c = .source → ∀ r, d.flush.query.source ≠ some (.subquery r) := by
    rintro rfl r hr
    simp [Query.has, hk.source r hr] at hn
  obtain ⟨hp, hcalls⟩ := d.flush.query.pieces_open hcall
  have hj := d.flush.query.open_joins c
  refine ⟨⟨⟨?_, h₁.carries.shaped.open hc hsource,
    fun p hm ↦ h₁.carries.pieces p (hp.mem_iff.1 hm)⟩, ?_, ?_⟩, ?_⟩
  · exact h₁.carries.fragment
  · exact fun c hm ↦ h₁.calls c (hcalls ▸ hm)
  · exact fun j hm ↦ h₁.joins j (hj ▸ hm)
  · have e : (d.openClause c).query = d.flush.query.open c := rfl
    have e' : (d.openClause c).fragment = d.flush.fragment := rfl
    rw [← h₂, sum, sum, Query.sum, Query.sum, e, e', amounts_perm hp, hj]

theorem comma (h : d.Sound lines even w C) (hz : Allowed even d.fragment.depth) :
    d.comma.Sound lines even w C ∧ d.comma.sum lines w = d.sum lines w := by
  obtain ⟨h₁, h₂, -⟩ := h.flush hz
  rw [Draft.comma]
  split
  · have hx : tally lines [','] = some (0, false) := (tally_loose (by decide)).trans tally_nil
    obtain ⟨i₁, i₂⟩ := h₁.push hx fun _ ↦ rfl
    exact ⟨i₁, by rw [i₂, h₂, Int.add_zero]⟩
  · exact ⟨h₁, h₂⟩

theorem conjunction (h : d.Sound lines even w C)
    (hz : d.fragment.isBalanced = true → Allowed even d.fragment.depth) (ht : Lexical t)
    (hk : t.kind = .conjunction) :
    (d.conjunction t).Sound lines even w C ∧
      (d.conjunction t).sum lines w = d.sum lines w + t.weight := by
  rw [Draft.conjunction]
  split
  · obtain ⟨h₁, h₂, -⟩ := h.flush (hz ‹_›)
    obtain ⟨i₁, i₂⟩ := h₁.pushToken ht (by simp [hk]) (by simp [hk])
    exact ⟨i₁, by rw [i₂, h₂]⟩
  · exact h.pushToken ht (by simp [hk]) (by simp [hk])

theorem setUnions (h : d.Sound lines even w C) (hu : d.query.unions = none) {qs : List Query}
    (hq : ∀ q ∈ qs, C q) :
    Sound lines even w C { d with query := { d.query with unions := some qs } } ∧
      Draft.sum lines w { d with query := { d.query with unions := some qs } } =
          d.sum lines w + (qs.map w).sum := by
  have hp := Query.pieces_unions hu qs
  refine ⟨⟨⟨h.carries.fragment, h.carries.shaped.of_eq rfl rfl, fun p hm ↦ ?_⟩, h.calls, h.joins⟩,
    ?_⟩
  · rcases List.mem_append.1 (hp.mem_iff.1 hm) with hm | hm
    · obtain ⟨q, hq', rfl⟩ := List.mem_map.1 hm
      exact hq q hq'
    · exact h.carries.pieces p hm
  · have ha : amounts lines w _ = amounts lines w _ := amounts_perm hp
    have hs : amounts lines w (qs.map Piece.query) = (qs.map w).sum := by
      simp [amounts, Function.comp_def, Piece.amount]
    rw [amounts_append, hs] at ha
    rw [sum, sum, Query.sum, Query.sum, ha]
    dsimp only
    omega

theorem addCall {a : CallArgs Query} (h : d.Sound lines even w C) (ht : Lexical t)
    (hk : t.kind = .aggregation) (ha : ∀ p ∈ a.pieces, p.Fits lines (Allowed even) C)
    (hz : amounts lines w a.pieces = 0) :
    (d.addCall t.text a).Sound lines even w C ∧
      (d.addCall t.text a).sum lines w = d.sum lines w := by
  have hcall : ∀ n, Clause.slot .select ≠ .call n := by simp
  obtain ⟨old, h₁, h₂, h₃⟩ := d.query.pieces_setCall t.text a
  obtain ⟨hp, hcalls⟩ := (d.query.setCall t.text a).pieces_open hcall
  have hj := (d.query.setCall t.text a).open_joins (.slot .select)
  refine ⟨⟨⟨h.carries.fragment, ?_, fun p hm ↦ ?_⟩, fun c hm ↦ ?_, fun j hm ↦ h.joins j (hj ▸ hm)⟩,
    ?_⟩
  · have hshape : (d.query.setCall t.text a).Shaped d.clause := h.carries.shaped.of_eq rfl rfl
    refine hshape.of_eq ?_ ?_ <;>
      · rw [Draft.addCall, Query.open.eq_def]
        dsimp only
        split <;> rfl
  · have hm : p ∈ (d.query.setCall t.text a).pieces ++ old :=
      List.mem_append_left _ (hp.mem_iff.1 hm)
    exact (List.mem_append.1 (h₁.mem_iff.1 hm)).elim (ha p) (h.carries.pieces p)
  · rcases h₃ c (hcalls ▸ hm) with rfl | hm
    · exact ⟨⟨t, rfl, ht, hk⟩, hz⟩
    · exact h.calls c hm
  · have hold : amounts lines w old = 0 := by
      rcases h₂ with rfl | ⟨b, hb, rfl⟩
      · rfl
      · exact (h.calls _ hb).amount
    have hsum : amounts lines w _ = amounts lines w _ := amounts_perm h₁
    rw [amounts_append, amounts_append, hold, hz] at hsum
    have hopen : amounts lines w _ = amounts lines w _ := amounts_perm hp
    have hwords : aliasAmount lines (d.addCall t.text a).query.joins =
        aliasAmount lines d.query.joins := congrArg _ hj
    have e : (d.addCall t.text a).query.pieces =
        ((d.query.setCall t.text a).open (.slot .select)).pieces := rfl
    have e' : (d.addCall t.text a).fragment = d.fragment := rfl
    rw [sum, sum, Query.sum, Query.sum, hwords, e, e', hopen]
    omega

theorem setSubquery {q : Query} (h : d.Sound lines even w C)
    (hs : d.query.source.all fun s ↦ s = .table []) (hq : C q) :
    (d.setSubquery q).Sound lines even w C ∧
      (d.setSubquery q).sum lines w = d.sum lines w + w q := by
  have hp := Query.pieces_subquery hs q
  refine ⟨⟨⟨h.carries.fragment, ⟨nofun, nofun, fun _ ↦ ⟨q, rfl⟩⟩, fun p hm ↦ ?_⟩, h.calls, h.joins⟩,
    ?_⟩
  · rcases List.mem_cons.1 (hp.mem_iff.1 hm) with rfl | hm
    · exact hq
    · exact h.carries.pieces p hm
  · have ha : amounts lines w _ = amounts lines w _ := amounts_perm hp
    rw [amounts_cons, Piece.amount] at ha
    rw [sum, sum, Query.sum, Query.sum, Draft.setSubquery, ha]
    dsimp only
    omega

theorem addJoin {j : Join Query} (h : d.Sound lines even w C) (hj : j.Worded lines)
    (hp : ∀ p ∈ j.pieces, p.Fits lines (Allowed even) C) :
    (d.addJoin j).Sound lines even w C ∧
      (d.addJoin j).sum lines w = d.sum lines w + amounts lines w j.pieces +
          (j.aliases.map (amount lines)).sum := by
  have hperm := d.query.pieces_joins j
  refine ⟨⟨⟨h.carries.fragment, h.carries.shaped.of_eq rfl rfl, fun p hm ↦ ?_⟩, h.calls,
    fun i hm ↦ ?_⟩, ?_⟩
  · exact (List.mem_append.1 (hperm.mem_iff.1 hm)).elim (hp p) (h.carries.pieces p)
  · rcases List.mem_append.1 hm with hm | hm
    · exact h.joins i hm
    · exact List.mem_singleton.1 hm ▸ hj
  · have ha : amounts lines w _ = amounts lines w _ := amounts_perm hperm
    have hw : aliasAmount lines (d.query.joins ++ [j]) =
        aliasAmount lines d.query.joins + (j.aliases.map (amount lines)).sum := by
      simp [aliasAmount]
    rw [amounts_append] at ha
    rw [sum, sum, Query.sum, Query.sum, Draft.addJoin, ha, hw]
    dsimp only
    omega

end Sound
end Draft
end QueryTemplate
