import QueryTemplate.Proofs.Query.Abreast
namespace QueryTemplate

open Token

variable {rest : Text} {r : Anchor} {q : Query} {t : Token} {a ts us z : List Token}
  {d d' k : Draft}

namespace Draft

theorem eq_of_step_join (ht : t.kind = .join) (hf : d.fragment.isBalanced = true)
    (hd : d.step rest t ts = .ok (d', us)) : ∃ j, d' = d.flush.addJoin j := by
  have ha : d.action t = .readJoin := by simp [action, ht, hf]
  rw [step, ha] at hd
  obtain ⟨⟨start, vs⟩, -, hd⟩ := ok_of_bind hd
  cases start with
  | arrays =>
    obtain ⟨rfl, -⟩ := Prod.mk.inj (Except.ok.inj hd)
    exact ⟨_, rfl⟩
  | table =>
    obtain ⟨p, -, hd⟩ := ok_of_map hd
    obtain ⟨rfl, -⟩ := Prod.mk.inj hd
    exact ⟨_, rfl⟩
  | subquery =>
    obtain ⟨q, -, hd⟩ := ok_of_bind hd
    obtain ⟨p, -, hd⟩ := ok_of_map hd
    obtain ⟨rfl, -⟩ := Prod.mk.inj hd
    exact ⟨_, rfl⟩

theorem eq_of_step_unions (ht : isUnionAll t = true) (hf : d.fragment.isBalanced = true)
    (hu : d.query.unions = none) (hd : d.step rest t ts = .ok (d', us)) :
    ∃ qs, d' = { d.flush with query := { d.flush.query with unions := some qs } } := by
  rw [step, action_of_isUnionAll ht hf hu] at hd
  obtain ⟨-, -, hd⟩ := ok_of_bind hd
  obtain ⟨qs, -, hd⟩ := ok_of_map hd
  obtain ⟨rfl, -⟩ := Prod.mk.inj hd
  exact ⟨qs, rfl⟩

/-- A query that starts with what parentheses enclose is read after them. -/
theorem exists_of_enclosed {F : Query → Draft}
    (hd : d.step rest t ts = (parseTokens [] z {}).map fun q ↦ (F q, us))
    (hq : parseTokens rest (t :: ts) d = .ok q) :
    ∃ q₀, parseTokens [] z {} = .ok q₀ ∧ d.step rest t ts = .ok (F q₀, us) ∧
      parseTokens rest us (F q₀) = .ok q := by
  rw [parseTokens_cons] at hq
  obtain ⟨p, hp, hq⟩ := ok_of_bind hq
  obtain ⟨q₀, hz, rfl⟩ := ok_of_map (hd.symm.trans hp)
  exact ⟨q₀, hz, hp, hq⟩

/-- The tokens `a` are read one after another from the draft `d` to the draft `k`, each in the same
way whatever follows. -/
inductive Passes : Draft → List Token → Draft → Prop
  | nil {d : Draft} : Passes d [] d
  | cons {d d' k : Draft} {t : Token} {x a : List Token}
    (hd : ∀ us, d.step [] t (x ++ us) = .ok (d', us)) (h : Passes d' a k) :
    Passes d (t :: (x ++ a)) k

namespace Passes

theorem token (hd : ∀ us, d.step [] t us = .ok (d', us)) (h : Passes d' a k) :
    Passes d (t :: a) k := .cons (x := []) hd h

theorem parse (h : Passes d a k) (ts : List Token) :
    parseTokens [] (a ++ ts) d = parseTokens [] ts k := by
  induction h with
  | nil => rfl
  | cons hd _ ih => rw [List.cons_append, List.append_assoc, parseTokens_step (hd _), ih]

theorem opened (h : Passes d a k) (ho : d.Opened) : k.Opened := by
  induction h with
  | nil => exact ho
  | cons hd _ ih => exact ih (ho.step (hd []))

end Passes

end Draft

open Draft

/-- The tokens tell the target, whatever follows them. -/
inductive Told : List Token → Anchor → Prop
  | here {a : List Token} {d : Draft} {r : Anchor} (h : Passes {} a d) (hr : d.Anchored r) :
    Told a r
  /-- A join or `UNION ALL` ends the first word in `FROM`. -/
  | next {a : List Token} {d : Draft} {w : Text} {t : Token} (h : Passes {} a d)
    (hc : d.clause = .source) (hs : d.query.source = some (.table []))
    (hw : (Text.words d.fragment.text).head? = some w) (hf : d.fragment.isBalanced = true)
    (ht : t.kind = .join ∨ isUnionAll t = true ∧ d.query.unions = none) :
    Told (a ++ [t]) (.word w)

theorem Told.parse (h : Told a r) (hq : parseTokens [] (a ++ ts) {} = .ok q) :
    q.anchor? = some r := by
  cases h with
  | here h hr =>
    rw [h.parse] at hq
    exact hr.parse hq
  | @next a d w t h hc hs hw hf ht =>
    have hheld := Held.of_word hc hs hw
    rw [List.append_assoc, h.parse, List.singleton_append, parseTokens_cons] at hq
    obtain ⟨⟨d', us⟩, hd, hq⟩ := ok_of_bind hq
    refine Anchored.parse (.held ?_) hq
    rcases ht with ht | ⟨ht, hu⟩
    · obtain ⟨j, rfl⟩ := eq_of_step_join ht hf hd
      exact hheld.addJoin j
    · obtain ⟨qs, rfl⟩ := eq_of_step_unions ht hf hu hd
      exact ⟨hheld.anchor, hheld.word⟩

end QueryTemplate
