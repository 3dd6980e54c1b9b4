import QueryTemplate.Proofs.Query.Tallied
import QueryTemplate.Proofs.Query.Pieces
namespace QueryTemplate

open Token Grammar

variable {lines : Bool} {x y : Text} {n m : Int} {b : Bool} {z : Int → Prop} {C : Query → Prop}
    {w : Query → Int} {d d' : Draft}

/-- How many parentheses a text opens, less those it closes. -/
def amount (lines : Bool) (x : Text) : Int := ((tally lines x).map Prod.fst).getD 0

theorem amount_of_tally (h : tally lines x = some (n, b)) : amount lines x = n := by
  rw [amount, h]
  rfl

namespace Piece

def amount (lines : Bool) (w : Query → Int) : Piece → Int
  | .text x => QueryTemplate.amount lines x
  | .query q => w q

/-- A text is read as a whole and has a tally that `z` allows; a query satisfies `C`. -/
def Fits (lines : Bool) (z : Int → Prop) (C : Query → Prop) : Piece → Prop
  | .text x => ∃ n, z n ∧ tally lines x = some (n, false)
  | .query q => C q

end Piece

/-- What pieces amount to, a query to `w`. -/
def amounts (lines : Bool) (w : Query → Int) (ps : List Piece) : Int :=
  (ps.map (Piece.amount lines w)).sum

@[simp] theorem amounts_nil : amounts lines w [] = 0 := rfl

@[simp] theorem amounts_cons (p : Piece) (ps : List Piece) :
    amounts lines w (p :: ps) = p.amount lines w + amounts lines w ps := by
  simp [amounts]

@[simp] theorem amounts_append (ps qs : List Piece) :
    amounts lines w (ps ++ qs) = amounts lines w ps + amounts lines w qs := by
  simp [amounts]

theorem amounts_texts (xs : List Text) :
    amounts lines w (xs.map .text) = (xs.map (amount lines)).sum := by
  simp [amounts, Function.comp_def, Piece.amount]

theorem amounts_perm {ps qs : List Piece} (h : ps.Perm qs) :
    amounts lines w ps = amounts lines w qs := by
  induction h with
  | nil => rfl
  | cons p _ ih => rw [amounts_cons, amounts_cons, ih]
  | swap p q ps =>
    simp only [amounts_cons]
    omega
  | trans _ _ ih₁ ih₂ => exact ih₁.trans ih₂

namespace Query

variable {q q' r : Query} {c e : Clause} {f : List Text → List Text}

/-- What stands in `FROM` and after it while the clause `c` is read. -/
structure Shaped (q : Query) (c : Clause) : Prop where
  call : ∀ n, c ≠ .call n
  source : c = .source → ∀ r, q.source ≠ some (.subquery r)
  aliases : c = .slot .aliases ∨ q.slots.aliases ≠ none → ∃ r, q.source = some (.subquery r)

theorem source_modify (h : q.modify? c f = some q') :
    q'.source = q.source ∨ (c = .source ∧ ∀ r, q.source ≠ some (.subquery r) ∧
      q'.source ≠ some (.subquery r)) := by
  cases c with
  | root | slot =>
    obtain rfl := Option.some.inj h
    exact .inl rfl
  | unions => cases h
  | call n =>
    rw [modify?] at h
    split at h
    · obtain rfl := Option.some.inj h
      exact .inl rfl
    · obtain rfl := Option.some.inj h
      exact .inl rfl
    · cases h
  | source =>
    rw [modify?] at h
    split at h
    · rename_i hs
      obtain rfl := Option.some.inj h
      exact .inr ⟨rfl, fun r ↦ ⟨by simp [hs], by simp⟩⟩
    · rename_i hs
      obtain rfl := Option.some.inj h
      exact .inr ⟨rfl, fun r ↦ ⟨by simp [hs], by simp⟩⟩
    · obtain rfl := Option.some.inj h
      exact .inl rfl

theorem aliases_modify (h : q.modify? c f = some q') (hq : q.Shaped c) (hc : c ≠ .slot .aliases) :
    q'.slots.aliases = q.slots.aliases := by
  cases c with
  | root =>
    obtain rfl := Option.some.inj h
    rfl
  | unions => cases h
  | call n => exact absurd rfl (hq.call n)
  | slot s =>
    obtain rfl := Option.some.inj h
    have hs : Slot.aliases ≠ s := fun e ↦ hc (by rw [e])
    exact q.slots.get_set_of_ne _ hs
  | source =>
    rw [modify?] at h
    split at h
    · obtain rfl := Option.some.inj h
      rfl
    · obtain rfl := Option.some.inj h
      rfl
    · rename_i hs
      exact absurd hs (hq.source rfl _)

theorem Shaped.modify (h : q.modify? c f = some q') (hq : q.Shaped c) : q'.Shaped c := by
  have hs := source_modify h
  refine ⟨hq.call, fun hc r hr ↦ ?_, fun ha ↦ ?_⟩
  · rcases hs with e | ⟨-, e⟩
    · exact hq.source hc r (e ▸ hr)
    · exact (e r).2 hr
  · have ⟨r, hr⟩ : ∃ r, q.source = some (.subquery r) := by
      by_cases hc : c = .slot .aliases
      · exact hq.aliases (.inl hc)
      · rw [aliases_modify h hq hc] at ha
        exact hq.aliases ha
    rcases hs with e | ⟨-, e⟩
    · exact ⟨r, e ▸ hr⟩
    · exact absurd hr (e r).1

/-- A clause that is not open is opened. -/
theorem Shaped.open (hq : q.Shaped e) (hc : c ∈ Clause.keywordClauses)
    (hn : c = .source → ∀ r, q.source ≠ some (.subquery r)) :
    (q.open c).Shaped c := by
  have hcall : ∀ n, c ≠ .call n := by
    rintro n rfl
    simp [Clause.keywordClauses] at hc
  have halias : c ≠ .slot .aliases := by
    rintro rfl
    simp [Clause.keywordClauses] at hc
  have same : ∀ {q' : Query}, q'.source = q.source → q'.slots.aliases = q.slots.aliases →
      q'.Shaped c := by
    intro q' hs ha
    refine ⟨hcall, fun e r ↦ hs ▸ hn e r, fun h ↦ hs ▸ hq.aliases (.inr ?_)⟩
    rw [← ha]
    exact h.resolve_left halias
  rw [Query.open.eq_def]
  split
  · exact same rfl rfl
  · cases c with
    | root => exact same rfl rfl
    | unions => exact same rfl rfl
    | call n => exact absurd rfl (hcall n)
    | slot s =>
      have hs : Slot.aliases ≠ s := fun e ↦ halias (by rw [e])
      exact same rfl (q.slots.get_set_of_ne _ hs)
    | source =>
      refine ⟨hcall, by simp, fun h ↦ ?_⟩
      obtain ⟨r, hr⟩ := hq.aliases (.inr (h.resolve_left halias))
      exact absurd hr (hn rfl r)

theorem Shaped.of_eq (hq : q.Shaped c) (hs : q'.source = q.source)
    (ha : q'.slots.aliases = q.slots.aliases) : q'.Shaped c :=
  ⟨hq.call, fun hc r ↦ hs ▸ hq.source hc r, fun h ↦ hs ▸ hq.aliases (ha ▸ h)⟩

end Query

namespace Draft

/-- What is kept where a draft goes on in its clause. -/
structure Keeps (d d' : Draft) : Prop where
  calls : d'.query.calls = d.query.calls
  clause : d'.clause = d.clause
  source : ∀ r, d'.query.source = some (.subquery r) → d.query.source = some (.subquery r)

theorem keeps_hold (f : Fragment) (d : Draft) : Keeps d (d.hold f) := ⟨rfl, rfl, fun _ ↦ id⟩

theorem Keeps.trans {d'' : Draft} (h : Keeps d d') (h' : Keeps d' d'') : Keeps d d'' :=
  ⟨h'.calls.trans h.calls, h'.clause.trans h.clause, fun r hr ↦ h.source r (h'.source r hr)⟩

/-- The parentheses that are opened, less those that are closed, in all that was read. -/
def total (lines : Bool) (w : Query → Int) (d : Draft) : Int :=
  amounts lines w d.query.pieces + d.fragment.depth

/-- What holds of a draft in the course of reading. -/
structure Carries (lines : Bool) (z : Int → Prop) (C : Query → Prop) (d : Draft) : Prop where
  fragment : d.fragment.Tallied lines
  shaped : d.query.Shaped d.clause
  pieces : ∀ p ∈ d.query.pieces, p.Fits lines z C

theorem carries_empty : Carries lines z C {} where
  fragment := Fragment.tallied_empty
  shaped := ⟨nofun, nofun, by simp⟩
  pieces := nofun

theorem push_source (d : Draft) (x : Text) (r : Query)
    (h : (d.push x).query.source = some (.subquery r)) :
    d.query.source = some (.subquery r) := by
  rw [push] at h
  split at h
  · rename_i hq
    rcases Query.source_modify hq with e | ⟨-, e⟩
    · rwa [← e]
    · exact absurd h (e r).2
  · exact h

theorem Carries.push (h : d.Carries lines z C) (hx : tally lines x = some (n, false)) (hn : z n) :
    (d.push x).Carries lines z C ∧ (d.push x).total lines w = d.total lines w + n ∧
      Keeps d (d.push x) := by
  obtain ⟨hp, hc⟩ := push_pieces (x := x) h.shaped.call
  refine ⟨⟨?_, ?_, ?_⟩, ?_, hc, push_clause x d, push_source d x⟩
  · rw [push_fragment]
    exact h.fragment
  · rw [push_clause, Draft.push]
    split
    · exact h.shaped.modify ‹_›
    · exact h.shaped.of_eq rfl rfl
  · intro p hm
    rcases List.mem_cons.1 (hp.mem_iff.1 hm) with rfl | hm
    · exact ⟨n, hn, hx⟩
    · exact h.pieces p hm
  · rw [total, total, amounts_perm hp, amounts_cons, Piece.amount, amount_of_tally hx,
      push_fragment]
    omega

theorem Carries.pushToLast (h : d.Carries lines z C) (hadd : ∀ m n, z m → z n → z (m + n))
    (hx : tally lines x = some (n, false)) (hn : z n) (he : d.pushToLast? x = some d') :
    d'.Carries lines z C ∧ d'.total lines w = d.total lines w + n ∧ Keeps d d' := by
  obtain ⟨last, rest, h₁, h₂, hc, hcl, hf, f, hq⟩ := pushToLast_pieces he h.shaped.call
  obtain ⟨m, hm, hlast⟩ := h.pieces _ (h₁.mem_iff.2 List.mem_cons_self)
  have hxs : tally lines (' ' :: x) = some (n, false) := (tally_loose (by decide)).trans hx
  have htally := Fragment.tally_add hlast hxs (.inr (.inl (by simp [Delimited]; decide)))
  refine ⟨⟨hf ▸ h.fragment, hcl ▸ h.shaped.modify hq, fun p hp ↦ ?_⟩, ?_, hc, hcl, fun r hr ↦ ?_⟩
  · rcases List.mem_cons.1 (h₂.mem_iff.1 hp) with rfl | hp
    · exact ⟨m + n, hadd m n hm hn, htally⟩
    · exact h.pieces p (h₁.mem_iff.2 (List.mem_cons_of_mem _ hp))
  · rw [total, total, amounts_perm h₁, amounts_perm h₂, amounts_cons, amounts_cons, hf,
      Piece.amount, Piece.amount, amount_of_tally htally, amount_of_tally hlast]
    omega
  · rcases Query.source_modify hq with e | ⟨-, e⟩
    · rwa [← e]
    · exact absurd hr (e r).2

theorem Carries.hold (h : d.Carries lines z C) {f : Fragment} (hf : f.Tallied lines) :
    (d.hold f).Carries lines z C :=
  ⟨hf, h.shaped, h.pieces⟩

theorem Carries.flush (h : d.Carries lines z C) (hadd : ∀ m n, z m → z n → z (m + n))
    (hz : z d.fragment.depth) :
    d.flush.Carries lines z C ∧ d.flush.total lines w = d.total lines w ∧ Keeps d d.flush := by
  have hr := h.hold Fragment.tallied_empty
  have htotal : (d.hold {}).total lines w + d.fragment.depth = d.total lines w := by
    rw [total, total]
    exact congrArg (· + _) (Int.add_zero _)
  have hkeeps := keeps_hold {} d
  cases hx : d.fragment.take? with
  | none =>
    have he : d.flush = d.hold {} := by
      rw [Draft.flush, hx]
      rfl
    rw [h.fragment.take?_none hx, Int.add_zero] at htotal
    exact he ▸ ⟨hr, htotal, hkeeps⟩
  | some x =>
    have he : d.flush = if d.fragment.hasCode then (d.hold {}).push x
        else ((d.hold {}).pushToLast? x).getD ((d.hold {}).push x) := by
      rw [Draft.flush, hx]
      rfl
    have htally := h.fragment.take? hx
    have hpush := hr.push (w := w) htally hz
    rw [he]
    split
    · exact ⟨hpush.1, hpush.2.1.trans htotal, hkeeps.trans hpush.2.2⟩
    · cases hl : (d.hold {}).pushToLast? x with
      | none => exact ⟨hpush.1, hpush.2.1.trans htotal, hkeeps.trans hpush.2.2⟩
      | some d' =>
        have hlast := hr.pushToLast (w := w) hadd htally hz hl
        exact ⟨hlast.1, hlast.2.1.trans htotal, hkeeps.trans hlast.2.2⟩

end Draft
end QueryTemplate
