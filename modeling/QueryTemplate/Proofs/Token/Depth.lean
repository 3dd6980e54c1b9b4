import QueryTemplate.Token.Nesting
namespace QueryTemplate

open Token

/-- The depth after some tokens. -/
def depthAfter (d : Nat) (ts : List Token) : Nat := ts.foldl (fun d t ↦ after (standing d t) t) d

@[simp] theorem depthAfter_nil (d : Nat) : depthAfter d [] = d := rfl

@[simp] theorem depthAfter_cons (d : Nat) (t : Token) (ts : List Token) :
    depthAfter d (t :: ts) = depthAfter (after (standing d t) t) ts := rfl

@[simp] theorem depthAfter_append (d : Nat) (a b : List Token) :
    depthAfter d (a ++ b) = depthAfter (depthAfter d a) b := by simp [depthAfter]

/-- No token outside of all parentheses satisfies `p`. -/
def Covered (p : Token → Bool) (d : Nat) (ts : List Token) : Prop := (sections p d ts).parts = []

instance (p : Token → Bool) (d : Nat) (ts : List Token) : Decidable (Covered p d ts) :=
  inferInstanceAs (Decidable (_ = _))

variable {p : Token → Bool} {d : Nat}

theorem covered_nil : Covered p d [] := rfl

theorem covered_cons {t : Token} {ts : List Token} : Covered p d (t :: ts) ↔
    (standing d t = 0 → p t = false) ∧ Covered p (after (standing d t) t) ts := by
  by_cases h : standing d t = 0 <;> cases hp : p t <;> simp [Covered, sections, h, hp]

theorem covered_of_forall {ts : List Token} (h : ∀ t ∈ ts, p t = false) : Covered p d ts := by
  induction ts generalizing d with
  | nil => exact covered_nil
  | cons t ts ih =>
    obtain ⟨ht, hts⟩ := List.forall_mem_cons.1 h
    exact covered_cons.2 ⟨fun _ ↦ ht, ih hts⟩

theorem Covered.mono {p q : Token → Bool} (h : ∀ t, q t = true → p t = true) {ts : List Token}
    (hc : Covered p d ts) : Covered q d ts := by
  induction ts generalizing d with
  | nil => exact covered_nil
  | cons t ts ih =>
    obtain ⟨h₁, h₂⟩ := covered_cons.1 hc
    refine covered_cons.2 ⟨fun hd ↦ Bool.eq_false_iff.2 fun hq ↦ ?_, ih h₂⟩
    have := h t hq
    rw [h₁ hd] at this
    cases this

theorem sections_append {a : List Token} (h : Covered p d a) (b : List Token) :
    sections p d (a ++ b) =
      ⟨a ++ (sections p (depthAfter d a) b).lead, (sections p (depthAfter d a) b).parts⟩ := by
  induction a generalizing d with
  | nil => rfl
  | cons t a ih =>
    obtain ⟨h₁, h₂⟩ := covered_cons.1 h
    have hn : (standing d t = 0 && p t : Bool) = false := by
      by_cases h : standing d t = 0
      · simp [h₁ h]
      · simp [h]
    rw [List.cons_append, sections, ih h₂, hn]
    rfl

theorem sections_of_covered {a : List Token} (h : Covered p d a) : sections p d a = ⟨a, []⟩ := by
  have := sections_append h []
  simpa [sections] using this

theorem covered_append {a b : List Token} :
    Covered p d (a ++ b) ↔ Covered p d a ∧ Covered p (depthAfter d a) b := by
  induction a generalizing d with
  | nil => simp [covered_nil]
  | cons t a ih => rw [List.cons_append, covered_cons, covered_cons, ih, depthAfter_cons, and_assoc]

theorem sections_cons_heading {t : Token} (h : standing d t = 0) (hp : p t = true)
    (ts : List Token) :
    sections p d (t :: ts) =
      ⟨[], (t, (sections p (after 0 t) ts).lead) :: (sections p (after 0 t) ts).parts⟩ := by
  simp [sections, h, hp]

/-- Tokens before the first heading, the heading and what follows it up to the next. -/
theorem sections_eq_cons {ts lead run : List Token} {t : Token} {parts : List (Token × List Token)}
    (h : sections p d ts = ⟨lead, (t, run) :: parts⟩) :
    Covered p d lead ∧ standing (depthAfter d lead) t = 0 ∧ p t = true ∧
      ts = lead ++ t :: (run ++ parts.flatMap fun q ↦ q.1 :: q.2) := by
  induction ts generalizing d lead with
  | nil => cases h
  | cons u ts ih =>
    simp only [sections] at h
    split at h
    · rename_i hu
      simp only [Bool.and_eq_true, decide_eq_true_eq] at hu
      obtain ⟨rfl, hp⟩ := Sections.mk.inj h
      obtain ⟨hq, rfl⟩ := List.cons.inj hp
      obtain ⟨rfl, rfl⟩ := Prod.mk.inj hq
      refine ⟨covered_nil, hu.1, hu.2, ?_⟩
      exact congrArg (u :: ·) (tokens_sections p _ ts).symm
    · rename_i hu
      obtain ⟨rfl, hp⟩ := Sections.mk.inj h
      have hs : sections p (after (standing d u) u) ts =
          ⟨(sections p (after (standing d u) u) ts).lead, (t, run) :: parts⟩ := by rw [← hp]
      obtain ⟨h₁, h₂, h₃, h₄⟩ := ih hs
      refine ⟨covered_cons.2 ⟨fun h0 ↦ ?_, h₁⟩, h₂, h₃, congrArg (u :: ·) h₄⟩
      simpa [h0] using hu

theorem cutOutside_eq_some_iff {ts a b : List Token} {t : Token} :
    cutOutside p ts = some (a, t, b) ↔
      ts = a ++ t :: b ∧ Covered p 0 a ∧ standing (depthAfter 0 a) t = 0 ∧ p t = true := by
  constructor
  · intro h
    simp only [cutOutside] at h
    split at h
    · cases h
    · rename_i e
      obtain ⟨rfl, h'⟩ := Prod.mk.inj (Option.some.inj h)
      obtain ⟨rfl, rfl⟩ := Prod.mk.inj h'
      obtain ⟨h₁, h₂, h₃, h₄⟩ := sections_eq_cons e
      exact ⟨h₄, h₁, h₂, h₃⟩
  · rintro ⟨rfl, h₁, h₂, h₃⟩
    have ht := tokens_sections p (after 0 t) b
    rw [Sections.tokens] at ht
    simp only [cutOutside, sections_append h₁, sections_cons_heading h₂ h₃, List.append_nil, ht]

theorem cutOutside_eq_none_iff {ts : List Token} : cutOutside p ts = none ↔ Covered p 0 ts := by
  rw [cutOutside, Covered]
  split
  · rename_i e
    simp [e]
  · rename_i e
    simp [e]

/-- Runs between headings stand in a row in the tokens. -/
theorem isInfix_of_mem_splitOutside {r : List Token} (h : r ∈ splitOutside p ts) : r <:+: ts := by
  have ht := tokens_sections p 0 ts
  rw [← ht, Sections.tokens]
  rcases List.mem_cons.1 h with rfl | h
  · exact (List.prefix_append _ _).isInfix
  · obtain ⟨q, hq, rfl⟩ := List.mem_map.1 h
    obtain ⟨a, b, e⟩ := List.append_of_mem hq
    rw [e]
    refine ⟨(sections p 0 ts).lead ++ (a.flatMap fun p ↦ p.1 :: p.2) ++ [q.1],
      b.flatMap fun p ↦ p.1 :: p.2, ?_⟩
    simp

theorem heading_of_mem_parts (ts : List Token) : ∀ q ∈ (sections p d ts).parts, p q.1 = true := by
  induction ts generalizing d with
  | nil => nofun
  | cons t ts ih =>
    rw [sections]
    split
    · rename_i h
      rw [Bool.and_eq_true] at h
      exact List.forall_mem_cons.2 ⟨h.2, ih⟩
    · exact ih

theorem splitOutside_of_covered {a : List Token} (h : Covered p 0 a) : splitOutside p a = [a] := by
  rw [splitOutside, sections_of_covered h]
  rfl

/-- Tokens without headings go before the first run. -/
theorem splitOutside_append {a : List Token} (h : Covered p 0 a) (hd : depthAfter 0 a = 0)
    (b : List Token) :
    splitOutside p (a ++ b) = (splitOutside p b).modifyHead (a ++ ·) := by
  rw [splitOutside, sections_append h, hd]
  rfl

theorem splitOutside_cons_heading {t : Token} (h : standing 0 t = 0) (ht : after 0 t = 0)
    (hp : p t = true) (b : List Token) : splitOutside p (t :: b) = [] :: splitOutside p b := by
  rw [splitOutside, sections_cons_heading h hp, ht]
  rfl

/-- Tokens have no heading, or a start without one, a heading and a rest that is cut in turn. -/
theorem splitOutside_eq_or (hp : ∀ t, p t = true → after 0 t = 0) (ts : List Token) :
    Covered p 0 ts ∨ ∃ a t b, ts = a ++ t :: b ∧ p t = true ∧ Covered p 0 a ∧
      standing (depthAfter 0 a) t = 0 ∧ splitOutside p ts = a :: splitOutside p b := by
  cases hs : sections p 0 ts with
  | mk lead parts =>
    cases parts with
    | nil => exact .inl (by rw [Covered, hs])
    | cons q parts =>
      obtain ⟨hc, hd, ht, rfl⟩ := sections_eq_cons hs
      refine .inr ⟨lead, q.1, _, rfl, ht, hc, hd, ?_⟩
      rw [splitOutside, sections_append hc, sections_cons_heading hd ht, hp _ ht]
      simp [Sections.runs, splitOutside]

/-- What follows some tokens goes to their last run, at whose end stands what they leave open. -/
theorem runs_sections_append (hp : ∀ t, p t = true → after 0 t = 0) (a : List Token) :
    ∃ rs r, (sections p d a).runs = rs ++ [r] ∧
      depthAfter (if rs = [] then d else 0) r = depthAfter d a ∧
      ∀ b, (sections p d (a ++ b)).runs =
        rs ++ (sections p (depthAfter d a) b).runs.modifyHead (r ++ ·) := by
  induction a generalizing d with
  | nil => exact ⟨[], [], rfl, rfl, fun b ↦ rfl⟩
  | cons t a ih =>
    obtain ⟨rs, r, h₁, h₂, h₃⟩ := ih (d := after (standing d t) t)
    by_cases h : (standing d t = 0 && p t) = true
    · have hr : ∀ b, (sections p d (t :: b)).runs =
          [] :: (sections p (after (standing d t) t) b).runs := by
        intro b
        rw [sections, if_pos h]
        rfl
      simp only [Bool.and_eq_true, decide_eq_true_eq] at h
      refine ⟨[] :: rs, r, by rw [hr, h₁, List.cons_append], ?_, fun b ↦ ?_⟩
      · rw [h.1, hp t h.2, ite_self] at h₂
        rw [if_neg (List.cons_ne_nil _ _), h₂, depthAfter_cons, h.1, hp t h.2]
      · rw [List.cons_append, hr, h₃, List.cons_append, depthAfter_cons]
    · have hr : ∀ b, (sections p d (t :: b)).runs =
          (sections p (after (standing d t) t) b).runs.modifyHead (t :: ·) := by
        intro b
        rw [sections, if_neg h]
        rfl
      cases rs with
      | nil =>
        refine ⟨[], t :: r, by rw [hr, h₁]; rfl, h₂, fun b ↦ ?_⟩
        rw [List.cons_append, hr, h₃, depthAfter_cons]
        cases (sections p (depthAfter (after (standing d t) t) a) b).runs <;> rfl
      | cons x rs =>
        refine ⟨(t :: x) :: rs, r, by rw [hr, h₁]; rfl, h₂, fun b ↦ ?_⟩
        rw [List.cons_append, hr, h₃, depthAfter_cons]
        rfl

/-- What follows tokens with balanced parentheses starts in their last run, which is balanced too.
-/
theorem splitOutside_append_last (hp : ∀ t, p t = true → after 0 t = 0) {a : List Token}
    (hd : depthAfter 0 a = 0) : ∃ rs r, splitOutside p a = rs ++ [r] ∧ depthAfter 0 r = 0 ∧
      ∀ b, splitOutside p (a ++ b) = rs ++ (splitOutside p b).modifyHead (r ++ ·) := by
  obtain ⟨rs, r, h₁, h₂, h₃⟩ := runs_sections_append (d := 0) hp a
  rw [hd] at h₂ h₃
  rw [ite_self] at h₂
  exact ⟨rs, r, h₁, h₂, h₃⟩

theorem splitOutside_ne_nil (p : Token → Bool) (ts : List Token) : splitOutside p ts ≠ [] := by
  simp [splitOutside, Sections.runs]

/-- The depth after some tokens, if no parenthesis closes that was not open. -/
def depthRun (d : Nat) : List Token → Option Nat
  | [] => some d
  | t :: ts =>
    if t.isOpenParen then depthRun (d + 1) ts
    else if t.isCloseParen then
      match d with
      | 0 => none
      | d + 1 => depthRun d ts
    else depthRun d ts

def Balanced (ts : List Token) : Prop := depthRun 0 ts = some 0

instance (ts : List Token) : Decidable (Balanced ts) := inferInstanceAs (Decidable (_ = _))

theorem depthRun_append (d : Nat) (a b : List Token) :
    depthRun d (a ++ b) = (depthRun d a).bind fun e ↦ depthRun e b := by
  induction a generalizing d with
  | nil => rfl
  | cons t a ih =>
    simp only [List.cons_append, depthRun]
    split
    · exact ih _
    · split
      · cases d with
        | zero => rfl
        | succ d => exact ih d
      · exact ih d

theorem depthRun_add {d e : Nat} {ts : List Token} (h : depthRun d ts = some e) (k : Nat) :
    depthRun (d + k) ts = some (e + k) := by
  induction ts generalizing d with
  | nil =>
    obtain rfl := Option.some.inj h
    rfl
  | cons t ts ih =>
    simp only [depthRun] at h ⊢
    split
    · rw [if_pos ‹_›] at h
      have := ih h
      rwa [Nat.add_right_comm] at this
    · rw [if_neg ‹_›] at h
      split
      · rw [if_pos ‹_›] at h
        cases d with
        | zero => cases h
        | succ d =>
          rw [Nat.add_right_comm]
          exact ih h
      · rw [if_neg ‹_›] at h
        exact ih h

/-- A `)` closes what balanced tokens leave open. -/
theorem closing?_append {d : Nat} {b : List Token} (h : depthRun d b = some 0) {e : Token}
    (he : e.isCloseParen = true) (ts : List Token) : closing? d (b ++ e :: ts) = some (b, ts) := by
  induction b generalizing d with
  | nil =>
    obtain rfl := Option.some.inj h
    have ho : e.isOpenParen = false := by
      simp only [isCloseParen, Bool.and_eq_true, decide_eq_true_eq] at he
      simp [isOpenParen, he.1]
    simp [closing?, he, ho]
  | cons t b ih =>
    simp only [depthRun] at h
    simp only [List.cons_append, closing?]
    split
    · rw [if_pos ‹_›] at h
      rw [ih h]
      rfl
    · rw [if_neg ‹_›] at h
      split
      · rw [if_pos ‹_›] at h
        cases d with
        | zero => cases h
        | succ d =>
          simp only at h ⊢
          rw [ih h]
          rfl
      · rw [if_neg ‹_›] at h
        rw [ih h]
        rfl

theorem depthRun_of_closing? {d : Nat} {ts b a : List Token} (h : closing? d ts = some (b, a)) :
    depthRun d b = some 0 ∧ ∃ e, e.isCloseParen = true ∧ ts = b ++ e :: a := by
  refine ⟨?_, closing?_eq_some h⟩
  induction ts generalizing d b with
  | nil => cases h
  | cons t ts ih =>
    simp only [closing?] at h
    split at h
    · rename_i ho
      obtain ⟨p, hp, e⟩ := Option.map_eq_some_iff.1 h
      obtain ⟨rfl, rfl⟩ := Prod.mk.inj e
      simp only [depthRun, if_pos ho]
      exact ih hp
    · split at h
      · cases d with
        | zero =>
          obtain ⟨rfl, rfl⟩ := Prod.mk.inj (Option.some.inj h)
          rfl
        | succ d =>
          obtain ⟨p, hp, e⟩ := Option.map_eq_some_iff.1 h
          obtain ⟨rfl, rfl⟩ := Prod.mk.inj e
          simp only [depthRun, if_neg ‹¬t.isOpenParen = true›, if_pos ‹t.isCloseParen = true›]
          exact ih hp
      · obtain ⟨p, hp, e⟩ := Option.map_eq_some_iff.1 h
        obtain ⟨rfl, rfl⟩ := Prod.mk.inj e
        simp only [depthRun, if_neg ‹¬t.isOpenParen = true›, if_neg ‹¬t.isCloseParen = true›]
        exact ih hp

theorem exists_closing? {d k e : Nat} {ts : List Token} (h : depthRun (k + 1 + d) ts = some e)
    (he : e ≤ d) :
    ∃ q, closing? k ts = some q := by
  induction ts generalizing k with
  | nil =>
    obtain rfl := Option.some.inj h
    omega
  | cons t ts ih =>
    simp only [depthRun] at h
    simp only [closing?]
    split
    · rw [if_pos ‹_›, show k + 1 + d + 1 = k + 1 + 1 + d by omega] at h
      obtain ⟨q, hq⟩ := ih h
      exact ⟨_, by rw [hq]; rfl⟩
    · rw [if_neg ‹_›] at h
      split
      · rw [if_pos ‹_›] at h
        cases k with
        | zero => exact ⟨_, rfl⟩
        | succ k =>
          rw [show k + 1 + 1 + d = k + 1 + d + 1 by omega] at h
          obtain ⟨q, hq⟩ := ih h
          exact ⟨(t :: q.1, q.2), by simp only [hq, Option.map_some]⟩
      · rw [if_neg ‹_›] at h
        obtain ⟨q, hq⟩ := ih h
        exact ⟨_, by rw [hq]; rfl⟩

theorem isCloseParen_of_isOpenParen {t : Token} (h : t.isOpenParen = true) :
    t.isCloseParen = false := by
  simp only [isOpenParen, Bool.and_eq_true, decide_eq_true_eq] at h
  simp [isCloseParen, h.1]

theorem isOpenParen_of_isCloseParen {t : Token} (h : t.isCloseParen = true) :
    t.isOpenParen = false := by
  simp only [isCloseParen, Bool.and_eq_true, decide_eq_true_eq] at h
  simp [isOpenParen, h.1]

/-- What parentheses enclose leaves the depth as it is. -/
theorem depthRun_group {d : Nat} {o e : Token} {b : List Token} (ho : o.isOpenParen = true)
    (he : e.isCloseParen = true) (hb : Balanced b) (ts : List Token) :
    depthRun d (o :: (b ++ e :: ts)) = depthRun d ts := by
  have h := depthRun_add hb (d + 1)
  rw [Nat.zero_add] at h
  simp only [depthRun, ho, if_true, depthRun_append, h, Option.bind_some,
    isOpenParen_of_isCloseParen he, he, Bool.false_eq_true, if_false]

/-- A parenthesis that opens in balanced tokens closes in them. -/
theorem exists_group {d : Nat} {o : Token} {ts : List Token} (ho : o.isOpenParen = true)
    (h : depthRun d (o :: ts) = some 0) :
    ∃ b e us, closing? 0 ts = some (b, us) ∧ ts = b ++ e :: us ∧
      e.isCloseParen = true ∧ Balanced b ∧ depthRun d us = some 0 := by
  have h' := h
  simp only [depthRun, ho, if_true] at h'
  rw [show d + 1 = 0 + 1 + d by omega] at h'
  obtain ⟨⟨b, us⟩, hq⟩ := exists_closing? h' (Nat.zero_le d)
  obtain ⟨hb, e, he, rfl⟩ := depthRun_of_closing? hq
  refine ⟨b, e, us, hq, rfl, he, hb, ?_⟩
  rwa [depthRun_group ho he hb] at h

theorem depthAfter_of_depthRun {d e : Nat} {ts : List Token} (h : depthRun d ts = some e) :
    depthAfter d ts = e := by
  induction ts generalizing d with
  | nil => exact Option.some.inj h
  | cons t ts ih =>
    simp only [depthRun] at h
    rw [depthAfter_cons, after, standing]
    split at h
    · rename_i ho
      rw [if_pos ho, if_neg (by simp [isCloseParen_of_isOpenParen ho])]
      exact ih h
    · rename_i ho
      rw [if_neg ho]
      split at h
      · rename_i hc
        rw [if_pos hc]
        cases d with
        | zero => cases h
        | succ d => exact ih h
      · rename_i hc
        rw [if_neg hc]
        exact ih h

end QueryTemplate
