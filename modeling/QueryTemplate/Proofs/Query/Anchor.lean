import QueryTemplate.Filter.Target
import QueryTemplate.Proofs.Query.Prefix
import QueryTemplate.Proofs.Token.Keyword
namespace QueryTemplate

open Token

/-- What the table of a query is told from: the first word in `FROM`, or the subquery there. -/
inductive Anchor
  | word (w : Text)
  | subquery (q : Query)

variable {rest w s x : Text} {r : Anchor} {q q' : Query} {c : Clause} {xs : List Text}
  {t : Token} {ts us : List Token} {d d' : Draft} {f : Fragment}

namespace Text

/-- The first word of the first of some texts. -/
def leading? (xs : List Text) : Option Text := xs.head?.bind fun x ↦ (words x).head?

theorem leading?_append (h : leading? xs = some w) (ys : List Text) :
    leading? (xs ++ ys) = some w := by
  cases xs with
  | nil => cases h
  | cons x xs => exact h

/-- What is added to the last text after a space does not change the first word. -/
theorem leading?_amend {last : Text} (h : leading? xs = some w) (hl : xs.getLast? = some last)
    (s : Text) : leading? (xs.dropLast ++ [last ++ ' ' :: s]) = some w := by
  obtain ⟨init, rfl⟩ := List.getLast?_eq_some_iff.1 hl
  cases init with
  | nil =>
    have hw : (words last).head? = some w := h
    rw [List.dropLast_concat, List.nil_append, leading?, List.head?_cons, Option.bind_some,
      words_append_cons rfl, List.head?_append, hw]
    rfl
  | cons y init =>
    rw [List.dropLast_concat]
    exact h

/-- The first word of a text, with white space after it. -/
def FirstWord (w s : Text) : Prop :=
  ∃ u c v, s = u ++ c :: v ∧ isSpace c = true ∧ (words u).head? = some w

theorem FirstWord.append (h : FirstWord w s) (x : Text) : FirstWord w (s ++ x) := by
  obtain ⟨u, c, v, rfl, hc, hu⟩ := h
  exact ⟨u, c, v ++ x, by simp, hc, hu⟩

theorem FirstWord.words (h : FirstWord w s) : (words s).head? = some w := by
  obtain ⟨u, c, v, rfl, hc, hu⟩ := h
  rw [words_append_cons hc, List.head?_append, hu]
  rfl

end Text

namespace Query

def anchor? (q : Query) : Option Anchor :=
  match q.source with
  | none => none
  | some (.subquery r) => some (.subquery r)
  | some (.table xs) => (Text.leading? xs).map .word

theorem anchor?_congr (h : q'.source = q.source) : q'.anchor? = q.anchor? := by
  rw [anchor?, anchor?, h]

theorem anchor?_table (h : q.source = some (.table xs)) :
    q.anchor? = (Text.leading? xs).map .word := by rw [anchor?, h]

theorem anchor?_eq_word : q.anchor? = some (.word w) ↔
    ∃ xs, q.source = some (.table xs) ∧ Text.leading? xs = some w := by
  rw [anchor?]
  constructor
  · intro h
    split at h
    · cases h
    · cases h
    · rename_i xs hs
      obtain ⟨v, hv, e⟩ := Option.map_eq_some_iff.1 h
      obtain rfl := Anchor.word.inj e
      exact ⟨xs, hs, hv⟩
  · rintro ⟨xs, hs, hw⟩
    simp [hs, hw]

theorem modify?_source {g : List Text → List Text} (h : q.modify? c g = some q')
    (hc : c ≠ .source) : q'.source = q.source := by
  cases c with
  | source => exact absurd rfl hc
  | root | slot => exact Option.some.inj h ▸ rfl
  | unions => cases h
  | call n =>
    simp only [modify?] at h
    split at h
    · exact Option.some.inj h ▸ rfl
    · exact Option.some.inj h ▸ rfl
    · cases h

theorem open_source (hc : c ≠ .source) : (q.open c).source = q.source := by
  rw [Query.open.eq_def]
  split
  · rfl
  · cases c with
    | source => exact absurd rfl hc
    | root | slot | unions | call => rfl

/-- A change that keeps the first word keeps what the table is told from. -/
theorem modify?_anchor {g : List Text → List Text} (h : q.modify? c g = some q')
    (hg : ∀ xs w, q.editable c = some xs → Text.leading? xs = some w →
      Text.leading? (g xs) = some w)
    (hr : q.anchor? = some r) : q'.anchor? = some r := by
  by_cases hc : c = .source
  · subst hc
    simp only [modify?] at h
    split at h
    · rename_i hs
      rw [anchor?, hs] at hr
      cases hr
    · rename_i xs hs
      obtain rfl := Option.some.inj h
      rw [anchor?_table hs] at hr
      obtain ⟨w, hw, rfl⟩ := Option.map_eq_some_iff.1 hr
      rw [anchor?_table rfl, hg xs w (by simp [editable, items, hs]) hw]
      rfl
    · exact Option.some.inj h ▸ hr
  · exact (anchor?_congr (modify?_source h hc)).trans hr

end Query

/-- The target is told from the anchor of each query on the way to the innermost one. -/
theorem Target.resolve?_eq (q : Query) (database table : Text) :
    resolve? q database table = q.anchor?.bind fun
      | .word w => ofReference? database table w
      | .subquery r => resolve? r database table := by
  obtain ⟨root, calls, slots, source, joins, unions⟩ := q
  match source with
  | none => rfl
  | some (.subquery r) => rfl
  | some (.table []) => rfl
  | some (.table (x :: xs)) =>
    simp only [resolve?, Query.innermost, Query.items, Query.anchor?, Text.leading?]
    cases hx : (Text.words x).head? <;> simp [hx]

namespace Fragment

/-- The items with an expression after them. Comments alone go to the last one. -/
def into (f : Fragment) (xs : List Text) : List Text :=
  match f.take?, xs.getLast? with
  | none, _ => xs
  | some x, none => [x]
  | some x, some last => if f.hasCode then xs ++ [x] else xs.dropLast ++ [last ++ ' ' :: x]

theorem take?_of_words (h : (Text.words f.text).head? = some w) :
    ∃ x, f.take? = some x ∧ (Text.words x).head? = some w := by
  have ht : (Text.words (Text.trim f.text)).head? = some w := by rwa [Text.words_trim]
  have hne : Text.trim f.text ≠ [] := by
    intro e
    rw [e] at ht
    cases ht
  rw [take?]
  simp only [if_neg hne]
  split
  · refine ⟨_, rfl, ?_⟩
    rwa [Text.words_append_spaces (List.forall_mem_singleton.2 rfl)]
  · exact ⟨_, rfl, ht⟩

theorem pushToken_text (t : Token) (f : Fragment) : ∃ s, (f.pushToken t).text = f.text ++ s :=
  ⟨_, List.append_assoc ..⟩

/-- A comment ends the word before it. -/
theorem firstWord_pushComment (h : (Text.words f.text).head? = some w) (t : Token) :
    Text.FirstWord w (f.pushComment t).text := by
  have hne : f.text ≠ [] := by
    intro e
    rw [e] at h
    cases h
  obtain ⟨u, c, hu⟩ : ∃ u c, f.text = u ++ [c] :=
    ⟨_, _, (List.dropLast_concat_getLast hne).symm⟩
  cases hc : Text.isSpace c with
  | true =>
    rw [hu, Text.words_append_spaces (List.forall_mem_singleton.2 hc)] at h
    exact ⟨u, c, t.text ++ ['\n'], by simp [pushComment, hu, hc], hc, h⟩
  | false => exact ⟨f.text, ' ', t.text ++ ['\n'], by simp [pushComment, hu, hc], rfl, h⟩

end Fragment

namespace Draft

theorem flush_table (hc : d.clause = .source) (hs : d.query.source = some (.table xs)) :
    d.flush.query.source = some (.table (d.fragment.into xs)) := by
  obtain ⟨q, c, f⟩ := d
  obtain rfl : c = .source := hc
  have hs : q.source = some (.table xs) := hs
  simp only [flush, Fragment.into]
  cases hf : f.take? with
  | none => exact hs
  | some x =>
    have hpush : (push x ⟨q, .source, {}⟩).query.source = some (.table (xs ++ [x])) := by
      simp [push, Query.push?, Query.modify?, hs]
    cases hl : xs.getLast? with
    | none =>
      obtain rfl := List.getLast?_eq_none_iff.1 hl
      have hlast : pushToLast? x ⟨q, .source, {}⟩ = none := by
        simp [pushToLast?, Query.editable, Query.items, hs]
      simp only [hlast, Option.getD_none, ite_self]
      exact hpush
    | some last =>
      have hlast : (pushToLast? x ⟨q, .source, {}⟩).map (·.query.source) =
          some (some (.table (xs.dropLast ++ [last ++ ' ' :: x]))) := by
        simp [pushToLast?, Query.editable, Query.items, Query.modify?, hs, hl]
      obtain ⟨e, he, hes⟩ := Option.map_eq_some_iff.1 hlast
      cases hcode : f.hasCode with
      | true => simpa [hcode] using hpush
      | false => simpa [hcode, he] using hes

/-- What the table is told from is in the query. -/
structure Held (d : Draft) (r : Anchor) : Prop where
  anchor : d.query.anchor? = some r
  word : d.clause = .source → ∃ w, r = .word w

namespace Held

theorem push (h : d.Held r) (x : Text) : (d.push x).Held r := by
  refine ⟨?_, by rw [push_clause]; exact h.word⟩
  rw [Draft.push]
  split
  · exact Query.modify?_anchor ‹_› (fun xs w _ hw ↦ Text.leading?_append hw _) h.anchor
  · exact h.anchor

theorem pushToLast (h : d.Held r) (hd : d.pushToLast? x = some d') : d'.Held r := by
  simp only [pushToLast?, Option.bind_eq_bind, Option.bind_eq_some_iff] at hd
  obtain ⟨items, hi, last, hl, q, hq, he⟩ := hd
  obtain rfl := Option.some.inj he
  refine ⟨Query.modify?_anchor hq (fun xs w hxs hw ↦ ?_) h.anchor, h.word⟩
  obtain rfl := Option.some.inj (hi.symm.trans hxs)
  exact Text.leading?_amend hw hl _

theorem hold (h : d.Held r) (f : Fragment) : (d.hold f).Held r := ⟨h.anchor, h.word⟩

theorem flush (h : d.Held r) : d.flush.Held r := by
  have hempty : Held { d with fragment := {} } r := h.hold {}
  rw [Draft.flush]
  split
  · exact hempty
  split
  · exact hempty.push _
  · rename_i x _ _
    cases e : pushToLast? x { d with fragment := {} } with
    | none => exact hempty.push _
    | some d' => exact hempty.pushToLast e

theorem addCall (h : d.Held r) (n : Text) (a : CallArgs Query) : (d.addCall n a).Held r :=
  ⟨(Query.anchor?_congr (Query.open_source (by simp))).trans h.anchor, h.word⟩

theorem addJoin (h : d.Held r) (j : Join Query) : (d.addJoin j).Held r := ⟨h.anchor, h.word⟩

/-- The first word in `FROM` is in the query when its expression is finished. -/
theorem of_word (hc : d.clause = .source) (hs : d.query.source = some (.table []))
    (hw : (Text.words d.fragment.text).head? = some w) : d.flush.Held (.word w) := by
  obtain ⟨x, hx, hxw⟩ := Fragment.take?_of_words hw
  refine ⟨?_, fun _ ↦ ⟨w, rfl⟩⟩
  rw [Query.anchor?_table (flush_table hc hs)]
  simp [Fragment.into, hx, Text.leading?, hxw]

theorem not_sourceIsEmpty (h : d.Held r) (hc : d.clause = .source) : d.sourceIsEmpty = false := by
  obtain ⟨w, rfl⟩ := h.word hc
  obtain ⟨xs, hs, hw⟩ := Query.anchor?_eq_word.1 h.anchor
  cases xs with
  | nil => cases hw
  | cons x xs => simp [sourceIsEmpty, Query.items, hs]

end Held

/-- What the table is told from will not change any more: it is in the query, or it is a whole word
at the start of the first item in `FROM`. -/
inductive Anchored (d : Draft) : Anchor → Prop
  | held {r : Anchor} (h : d.Held r) : Anchored d r
  | pending {w : Text} (hc : d.clause = .source) (hs : d.query.source = some (.table []))
    (hw : Text.FirstWord w d.fragment.text) : Anchored d (.word w)

namespace Anchored

theorem has_source (h : d.Anchored r) : d.query.has .source = true := by
  cases h with
  | pending _ hs => simp [Query.has, hs]
  | held h =>
    cases hs : d.query.source with
    | some _ => simp [Query.has, hs]
    | none =>
      have := h.anchor
      rw [Query.anchor?, hs] at this
      cases this

/-- The word of an expression that is finished is in the query. -/
theorem flush (h : d.Anchored r) : d.flush.Held r := by
  cases h with
  | held h => exact h.flush
  | pending hc hs hw => exact .of_word hc hs hw.words

/-- An expression may only grow. -/
theorem hold (h : d.Anchored r) (hf : ∃ s, f.text = d.fragment.text ++ s) :
    (d.hold f).Anchored r := by
  cases h with
  | held h => exact .held (h.hold f)
  | pending hc hs hw =>
    obtain ⟨s, hf⟩ := hf
    exact .pending hc hs (by rw [hold_fragment, hf]; exact hw.append s)

theorem pushToken (h : d.Anchored r) (t : Token) : (d.pushToken t).Anchored r :=
  h.hold (Fragment.pushToken_text t d.fragment)

theorem pushComment (h : d.Anchored r) (t : Token) : (d.pushComment t).Anchored r := by
  refine h.hold ⟨(if d.fragment.text.getLast?.any (!Text.isSpace ·) then [' '] else []) ++ t.text ++
    ['\n'], ?_⟩
  simp [Fragment.pushComment]

theorem pushText (h : d.Anchored r) (x : Text) : (d.pushText x).Anchored r := h.hold ⟨x, rfl⟩

theorem not_sourceIsEmpty (h : d.Anchored r) (hc : d.clause = .source) :
    d.sourceIsEmpty = false := by
  cases h with
  | held h => exact h.not_sourceIsEmpty hc
  | pending _ _ hw =>
    obtain ⟨x, hx, -⟩ := Fragment.take?_of_words hw.words
    have hne : Text.trim d.fragment.text ≠ [] := by
      intro e
      simp [Fragment.take?, e] at hx
    simp [sourceIsEmpty, Fragment.isEmpty, hne]

theorem step (h : d.Anchored r) (hd : d.step rest t ts = .ok (d', us)) : d'.Anchored r := by
  cases stepped_of_step hd with
  | skip => exact h
  | token | memberToken => exact h.pushToken t
  | comment => exact h.pushComment t
  | tableCall => exact h.pushText _
  | member => exact (h.pushToken t).pushText _
  | @clause c _ _ _ hn =>
    have hc : c ≠ .source := by
      rintro rfl
      rw [h.has_source] at hn
      cases hn
    exact .held ⟨(Query.anchor?_congr (Query.open_source hc)).trans h.flush.anchor,
      fun e ↦ absurd e hc⟩
  | comma =>
    rw [comma]
    split
    · exact .held (h.flush.push _)
    · exact .held h.flush
  | conjunction =>
    rw [conjunction]
    split
    · exact (Anchored.held h.flush).pushToken t
    · exact h.pushToken t
  | unions => exact .held ⟨h.flush.anchor, h.flush.word⟩
  | call => exact .held (h.flush.addCall _ _)
  | subquery _ hc hs => simp [h.not_sourceIsEmpty hc] at hs
  | arrays | table | joinQuery => exact .held (h.flush.addJoin _)

/-- Whatever follows, the table is told from what it was told from so far. -/
theorem parse (h : d.Anchored r) (hq : parseTokens rest ts d = .ok q) : q.anchor? = some r := by
  induction hn : ts.length using Nat.strongRecOn generalizing ts d with
  | ind n ih =>
    cases ts with
    | nil =>
      rw [parseTokens_nil] at hq
      exact eq_of_atEnd hq ▸ h.flush.anchor
    | cons t ts =>
      rw [parseTokens_cons] at hq
      obtain ⟨⟨d', us⟩, hs, hq⟩ := ok_of_bind hq
      have hl : us.length < n := hn ▸ Nat.lt_succ_of_le (suffix_of_step hs).length_le
      exact ih us.length hl (h.step hs) hq rfl

end Anchored
end Draft
end QueryTemplate
