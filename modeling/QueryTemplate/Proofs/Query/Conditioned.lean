import QueryTemplate.Proofs.Query.Prefix
import QueryTemplate.Proofs.Query.Stretch
namespace QueryTemplate

open Token

variable {q : Query} {c : Clause} {s : Slot} {ys : List Text} {x : Option (List Text)} {d : Draft}
    {k : Nat} {t : Token}
  {rest : Text} {ts : List Token}

namespace Query

theorem modify?_assign {f : List Text → List Text} (hc : c ≠ .slot s) (hs : s ≠ .aliases) :
    (q.assign ys (.slot s)).modify? c f = (q.modify? c f).map (·.assign ys (.slot s)) := by
  cases c with
  | root | unions => rfl
  | slot r =>
    have hr : r ≠ s := fun e ↦ hc (by rw [e])
    simp [modify?, assign, Slots.get_set_of_ne _ _ hr, Slots.set_comm _ _ _ hr]
  | source =>
    simp only [modify?, assign]
    split
    · rfl
    · rfl
    · simp [Slots.get_set_of_ne _ _ (Ne.symm hs), Slots.set_comm _ _ _ (Ne.symm hs)]
  | call n =>
    simp only [modify?, assign, lookupCall]
    split <;> rfl

theorem open_assign (hc : c ≠ .slot s) :
    (q.assign ys (.slot s)).open c = (q.open c).assign ys (.slot s) := by
  have hh : (q.assign ys (.slot s)).has c = q.has c := by
    rw [has_assign rfl, decide_eq_false hc, Bool.false_or]
  rw [Query.open.eq_def, Query.open.eq_def, hh]
  split
  · rfl
  · cases c with
    | slot r =>
      have hr : s ≠ r := fun e ↦ hc (by rw [e])
      simp [assign, Slots.set_comm _ _ _ hr]
    | root | source | unions | call => rfl

end Query

namespace Draft

/-- The draft with other items in a slot. -/
def assign (ys : List Text) (s : Slot) (d : Draft) : Draft :=
  { d with query := d.query.assign ys (.slot s) }

theorem push_assign_of_ne (x : Text) (hc : d.clause ≠ .slot s) (hs : s ≠ .aliases) :
    (d.assign ys s).push x = (d.push x).assign ys s := by
  have h : (d.assign ys s).query.push? d.clause x =
    (d.query.push? d.clause x).map (·.assign ys (.slot s)) :=
    Query.modify?_assign hc hs
  have hclause : (d.assign ys s).clause = d.clause := rfl
  cases e : d.query.push? d.clause x <;> simp only [push, hclause, h, e] <;> rfl

theorem addItems_assign_of_ne (xs : List Text) (hc : d.clause ≠ .slot s) (hs : s ≠ .aliases) :
    (d.assign ys s).addItems xs = (d.addItems xs).assign ys s := by
  induction xs generalizing d with
  | nil => rfl
  | cons x xs ih =>
    rw [addItems, List.foldl_cons, push_assign_of_ne x hc hs, ← addItems, ih (by rwa [push_clause])]
    rfl

theorem flush_assign_of_ne (hf : d.fragment.Clean) (hc : d.clause ≠ .slot s) (hs : s ≠ .aliases) :
    (d.assign ys s).flush = d.flush.assign ys s := by
  have hf' : (d.assign ys s).fragment.Clean := hf
  rw [flush_eq hf, flush_eq hf', addItems_assign_of_ne _ hc hs]
  rfl

theorem openClause_assign (hf : d.fragment.Clean) (hc : d.clause ≠ .slot s) (hs : s ≠ .aliases)
    (he : c ≠ .slot s) :
    (d.assign ys s).openClause c = (d.openClause c).assign ys s := by
  rw [openClause, openClause, flush_assign_of_ne hf hc hs]
  simp only [assign, Query.open_assign he]

theorem comma_assign (hf : d.fragment.Clean) (hc : d.clause ≠ .slot s) (hs : s ≠ .aliases) :
    (d.assign ys s).comma = d.comma.assign ys s := by
  have hd : (d.assign ys s).clause = d.clause := rfl
  rw [comma, comma, flush_assign_of_ne hf hc hs, hd]
  split
  · exact push_assign_of_ne _ (by rwa [flush_clause]) hs
  · rfl

theorem conjunction_assign (hf : d.fragment.Clean) (hc : d.clause ≠ .slot s) (hs : s ≠ .aliases)
    (t : Token) :
    (d.assign ys s).conjunction t = (d.conjunction t).assign ys s := by
  have hd : (d.assign ys s).fragment = d.fragment := rfl
  rw [conjunction, conjunction, flush_assign_of_ne hf hc hs, hd]
  split <;> rfl

/-- Outside of its clause a slot matters only to the keyword that opens it. -/
theorem action_assign
    (ht : t.clause? = some (.slot s) → d.fragment.isBalanced = true →
      d.query.has (.slot s) = true) :
    (d.assign ys s).action t = d.action t := by
  have hf : (d.assign ys s).fragment = d.fragment := rfl
  have hc : (d.assign ys s).clause = d.clause := rfl
  have hq : (d.assign ys s).query = d.query.assign ys (.slot s) := rfl
  rw [action, action, hf, hc, hq]
  cases hk : t.kind with
  | clause =>
    dsimp only
    cases hw : Clause.ofKeyword? t.keyword with
    | none => rfl
    | some c =>
      dsimp only
      rw [Query.has_assign rfl]
      by_cases he : c = .slot s
      · subst he
        cases hb : d.fragment.isBalanced with
        | false => rfl
        | true => simp [ht (by rw [clause?, if_pos hk, hw]) hb]
      · rw [decide_eq_false he, Bool.false_or]
  | _ => rfl

theorem sourceIsEmpty_assign : (d.assign ys s).sourceIsEmpty = d.sourceIsEmpty := rfl

/-- Outside of its clause a slot is carried along. -/
theorem step_assign (hf : d.fragment.Clean) (hc : d.clause ≠ .slot s) (hs : s ≠ .aliases)
    (hk : t.kind ≠ .join ∧ t.kind ≠ .aggregation)
    (ht : t.clause? = some (.slot s) → d.fragment.isBalanced = true →
      d.query.has (.slot s) = true) :
    (d.assign ys s).step rest t ts = (d.step rest t ts).map fun p ↦ (p.1.assign ys s, p.2) := by
  have hm := d.means_action t
  have had := d.admits_action t
  have hd : (d.assign ys s).fragment = d.fragment := rfl
  rw [step, step, action_assign ht, hd]
  cases ha : d.action t with
  | skip | pushToken | pushComment => rfl
  | openClause c =>
    rw [ha] at hm had
    have he : c ≠ .slot s := by
      rintro rfl
      have := ht (by rw [clause?, if_pos hm.1, had.1]) hm.2.1
      rw [had.2] at this
      cases this
    simp only [openClause_assign hf hc hs he, Except.map]
  | comma => simp only [comma_assign hf hc hs, Except.map]
  | conjunction => simp only [conjunction_assign hf hc hs, Except.map]
  | readUnions =>
    simp only [flush_assign_of_ne hf hc hs]
    cases atEnd rest () with
    | error e => rfl
    | ok u =>
      simp only [Except.bind]
      cases (splitOutside isUnionAll ts).mapM fun b ↦ parseTokens [] b {} <;> rfl
  | readCall => exact absurd (ha ▸ hm : t.kind = .aggregation ∧ _).1 hk.2
  | readJoin => exact absurd (ha ▸ hm : t.kind = .join ∧ _).1 hk.1
  | sourceParen =>
    rw [sourceIsEmpty_assign]
    dsimp only
    split
    · rfl
    · cases group rest ts with
      | error e => rfl
      | ok g =>
        simp only [Except.bind]
        split
        · rfl
        · cases parseTokens [] g.1 {} <;> rfl
  | membership =>
    dsimp only
    split
    · rfl
    · split
      · cases group rest _ with
        | error e => rfl
        | ok g =>
          simp only [Except.bind]
          cases parseTokens [] g.1 {} <;> rfl
      · rfl

end Draft

namespace Fragment

theorem Trimmed.pushMember {f : Fragment} (h : f.Trimmed) (hne : f.text ≠ []) (q : Query) :
    (f.pushText (membershipText q)).Trimmed := by
  obtain ⟨u, hu⟩ := exists_membershipText q
  obtain ⟨c, v, hv⟩ := List.exists_cons_of_ne_nil hne
  refine ⟨clean_pushText f _, ⟨fun x hx ↦ h.solid.head x ?_, fun x hx ↦ ?_⟩,
    fun e ↦ absurd e (by simp [Fragment.pushText, hne])⟩
  · rw [Fragment.pushText, hv] at hx
    rw [hv]
    exact hx
  · have hl : (f.pushText (membershipText q)).text.getLast? = some ')' := by
      rw [Fragment.pushText, hu]
      have hs : (' ' :: u ++ ")").getLast? = some ')' := List.getLast?_concat
      exact List.getLast?_append.trans (by rw [hs]; rfl)
    obtain rfl := Option.some.inj (hl.symm.trans hx)
    rfl

end Fragment

namespace Draft

theorem flush_trimmed (d : Draft) : d.flush.fragment.Trimmed := by
  rw [flush_fragment]
  exact Fragment.trimmed_empty

/-- Without comments an expression stays free of white space at its ends. -/
theorem trimmed_step {d' : Draft} {us : List Token} (h : d.fragment.Trimmed) (hl : Lexical t)
    (hc : t.kind ≠ .comment) (hd : d.step rest t ts = .ok (d', us)) : d'.fragment.Trimmed := by
  have hpush : t.kind ≠ .blank → (d.pushToken t).fragment.Trimmed := fun hb ↦ h.pushToken hl hb hc
  cases stepped_of_step hd with
  | skip => exact h
  | token hb => exact hpush hb
  | comment hk => exact absurd hk hc
  | clause | unions | arrays | table | joinQuery | call => exact d.flush_trimmed
  | comma =>
    rw [comma]
    split
    · rw [push_fragment]
      exact d.flush_trimmed
    · exact d.flush_trimmed
  | conjunction hk =>
    rw [conjunction]
    split
    · exact d.flush_trimmed.pushToken hl (by simp [hk]) hc
    · exact hpush (by simp [hk])
  | tableCall => exact h.pushText _
  | subquery => exact h
  | member hk => exact (hpush (by simp [hk])).pushMember (by simp [pushToken, Fragment.pushToken, hl.text_ne_nil]) _
  | memberToken hk => exact hpush (by simp [hk])

end Draft

/-- What is in a clause does not matter to what is read after it. -/
theorem Draft.Past.parse (hp : d.Past s x) (h : d.Leaves k) (hi : InStatement k ts)
    (hf : d.fragment.Trimmed) (hs : s ≠ .aliases)
    (hk : ∀ t ∈ ts, Lexical t ∧ t.kind ≠ .comment ∧ t.kind ≠ .join ∧ t.kind ≠ .aggregation)
    (hx : x = none → Covered (·.clause? = some (.slot s)) k ts) (ys : List Text) :
    parseTokens [] ts (d.assign ys s) = (parseTokens [] ts d).map (·.assign ys (.slot s)) ∧
      ∀ q, parseTokens [] ts d = .ok q → q.slots.get s = x := by
  induction hn : ts.length using Nat.strongRecOn generalizing d k ts with
  | ind n ih =>
    cases ts with
    | nil =>
      rw [parseTokens_nil, parseTokens_nil, flush_assign_of_ne hf.toClean hp.clause hs]
      exact ⟨rfl, fun q hq ↦ Except.ok.inj hq ▸ (hp.flush hs).slot⟩
    | cons t ts =>
      obtain ⟨hlex, hcom, hjoin⟩ := hk t List.mem_cons_self
      have hopen : t.clause? = some (.slot s) → d.fragment.isBalanced = true →
          d.query.has (.slot s) = true := by
        intro hc hb
        rw [Query.has, hp.slot]
        cases x with
        | none =>
          rw [h.inside (hx rfl) hc] at hb
          cases hb
        | some xs => rfl
      rw [parseTokens_cons, parseTokens_cons, step_assign hf.toClean hp.clause hs hjoin hopen]
      cases hd : d.step [] t ts with
      | error e => exact ⟨rfl, fun q hq ↦ by cases hq⟩
      | ok p =>
        obtain ⟨m, h', hi'⟩ := (h.step hi fun _ _ ↦ opensNoGroup_nil).2 p hd
        have hl := leaves_step p hd
        have hsuf := suffix_of_step hd
        have hp' := hp.step hs hjoin.2 (fun e ↦ h.inside (hx e)) hd
        exact ih p.2.length (by rw [← hn, List.length_cons]; omega) hp' h' hi'
          (trimmed_step hf hlex hcom hd)
          (fun u hu ↦ hk u (List.mem_cons_of_mem _ (hsuf.mem hu)))
          (fun e ↦ covered_suffix hi.balanced hi'.balanced (hsuf.trans (List.suffix_cons _ _))
            (hx e)) rfl

end QueryTemplate
