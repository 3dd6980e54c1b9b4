import QueryTemplate.Proofs.Query.Legible
import QueryTemplate.Proofs.Query.Stepped
namespace QueryTemplate

open Token Grammar Fragment

variable {lines : Bool} {x : Text} {n m : Int} {t : Token} {ts us : List Token} {f : Fragment}
    {even : Bool} {rest : Text}
  {p : List Text × List Token}

/-- Texts are put together from the first of some tokens after `n` parentheses were opened and not
closed. -/
structure Parted (lines even : Bool) (n : Int) (ts : List Token) (p : List Text × List Token) :
    Prop where
  suffix : p.2 <:+ ts
  tallied : ∀ x ∈ p.1, ∃ m, tally lines x = some (m, false)
  total : (p.1.map (amount lines)).sum + weigh p.2 = n + weigh ts
  closes : Closes even n ts → (∀ x ∈ p.1, Allowed even (amount lines x)) ∧ Closes even 0 p.2

/-- What the expressions after a join phrase or `ON` are put together of. -/
inductive Collects : Fragment → List Token → List Text × List Token → Prop
  | done {f : Fragment} : Collects f [] (f.take?.toList, [])
  | stop {f : Fragment} {ts : List Token} (hf : f.isBalanced = true) :
    Collects f ts (f.take?.toList, ts)
  | blank {f : Fragment} {t : Token} {ts : List Token} {p : List Text × List Token}
      (ht : t.isBlank = true)
    (h : Collects f ts p) : Collects f (t :: ts) p
  | comma {f : Fragment} {t : Token} {ts : List Token} {p : List Text × List Token}
      (hf : f.isBalanced = true)
    (ht : t.isComma = true) (h : Collects {} ts p) :
    Collects f (t :: ts) (f.take?.toList ++ p.1, p.2)
  | conjunction {f : Fragment} {t : Token} {ts : List Token} {p : List Text × List Token}
      (hf : f.isBalanced = true)
    (ht : t.kind = .conjunction) (h : Collects (Fragment.pushToken t {}) ts p) :
    Collects f (t :: ts) (f.take?.toList ++ p.1, p.2)
  | comment {f : Fragment} {t : Token} {ts : List Token} {p : List Text × List Token} (ht : t.kind =
      .comment)
    (h : Collects (f.pushComment t) ts p) : Collects f (t :: ts) p
  | token {f : Fragment} {t : Token} {ts : List Token} {p : List Text × List Token}
      (hb : t.isBlank = false)
    (hc : t.kind ≠ .comment) (h : Collects (f.pushToken t) ts p) : Collects f (t :: ts) p

theorem collects_arrays (h : Join.arrays rest f ts = .ok p) : Collects f ts p := by
  induction ts generalizing f p with
  | nil =>
    obtain rfl := eq_of_atEnd h
    exact .done
  | cons t ts ih =>
    rw [Join.arrays] at h
    split at h
    · exact .blank ‹_› (ih h)
    rename_i hb
    split at h
    · rename_i hs
      simp only [Bool.and_eq_true] at hs
      obtain rfl := Except.ok.inj h
      exact .stop hs.1
    split at h
    · rename_i hs
      simp only [Bool.and_eq_true] at hs
      obtain ⟨q, hq, rfl⟩ := ok_of_map h
      exact .comma hs.1 hs.2 (ih hq)
    split at h
    · exact .comment ‹_› (ih h)
    · exact .token (Bool.eq_false_iff.2 hb) ‹_› (ih h)

theorem collects_conditions (h : Join.conditions rest f ts = .ok p) : Collects f ts p := by
  induction ts generalizing f p with
  | nil =>
    obtain rfl := eq_of_atEnd h
    exact .done
  | cons t ts ih =>
    rw [Join.conditions] at h
    split at h
    · exact .blank ‹_› (ih h)
    rename_i hb
    split at h
    · rename_i hs
      simp only [Bool.and_eq_true] at hs
      obtain rfl := Except.ok.inj h
      exact .stop hs.1
    split at h
    · rename_i hs
      simp only [Bool.and_eq_true, decide_eq_true_eq] at hs
      obtain ⟨q, hq, rfl⟩ := ok_of_map h
      exact .conjunction hs.1 hs.2 (ih hq)
    split at h
    · exact .comment ‹_› (ih h)
    · exact .token (Bool.eq_false_iff.2 hb) ‹_› (ih h)

theorem take?_total (h : f.Tallied lines) : (f.take?.toList.map (amount lines)).sum = f.depth ∧
    ∀ x ∈ f.take?.toList, tally lines x = some (f.depth, false) := by
  cases hx : f.take? with
  | none =>
    rw [h.take?_none hx]
    exact ⟨rfl, nofun⟩
  | some x =>
    have ht := h.take? hx
    exact ⟨by simp [amount_of_tally ht], by simpa using ht⟩

theorem isBalanced_depth (h : f.isBalanced = true) : f.depth ≤ 0 := of_decide_eq_true h

theorem parted_stop (hf : f.Tallied lines) (hb : ts = [] ∨ f.isBalanced = true) :
    Parted lines even f.depth ts (f.take?.toList, ts) := by
  obtain ⟨h₁, h₂⟩ := take?_total hf
  refine ⟨List.suffix_rfl, fun x hx ↦ ⟨_, h₂ x hx⟩, by rw [h₁], fun hc ↦ ?_⟩
  have ha := hc.allowed (hb.imp_right isBalanced_depth)
  exact ⟨fun x hx ↦ amount_of_tally (h₂ x hx) ▸ ha, hc.restart ha⟩

theorem Parted.skip (h : Parted lines even n ts p) (hw : t.weight = 0) :
    Parted lines even n (t :: ts) p where
  suffix := h.suffix.trans (List.suffix_cons t ts)
  tallied := h.tallied
  total := by rw [weigh_cons, hw, Int.zero_add, h.total]
  closes hc := h.closes (hc.skip_token hw)

/-- A text ends at a token that is not a part of it or starts the next one. -/
theorem Parted.next (h : Parted lines even 0 ts p) (hf : f.Tallied lines) (hb : f.isBalanced = true)
    (hw : t.weight = 0) :
    Parted lines even f.depth (t :: ts) (f.take?.toList ++ p.1, p.2) := by
  obtain ⟨h₁, h₂⟩ := take?_total hf
  refine ⟨h.suffix.trans (List.suffix_cons t ts), fun x hx ↦ ?_, ?_, fun hc ↦ ?_⟩
  · exact (List.mem_append.1 hx).elim (fun hx ↦ ⟨_, h₂ x hx⟩) (h.tallied x)
  · rw [List.map_append, List.sum_append, h₁, Int.add_assoc, h.total, weigh_cons, hw, Int.zero_add]
  · have ha := hc.allowed (.inr (isBalanced_depth hb))
    obtain ⟨h₃, h₄⟩ := h.closes ((hc.restart ha).skip_token hw)
    exact ⟨fun x hx ↦ (List.mem_append.1 hx).elim (fun hx ↦ amount_of_tally (h₂ x hx) ▸ ha) (h₃ x),
      h₄⟩

theorem Parted.push (h : Parted lines even (f.pushToken t).depth ts p) :
    Parted lines even f.depth (t :: ts) p where
  suffix := h.suffix.trans (List.suffix_cons t ts)
  tallied := h.tallied
  total := by rw [h.total, pushToken_depth, weigh_cons, Int.add_assoc]
  closes hc := h.closes (pushToken_depth f t ▸ hc.tail)

theorem Collects.parted (h : Collects f ts p) (hf : f.Tallied lines) (hts : Legible lines ts) :
    Parted lines even f.depth ts p := by
  induction h with
  | done => exact parted_stop hf (.inl rfl)
  | stop hb => exact parted_stop hf (.inr hb)
  | blank ht _ ih => exact (ih hf hts.tail).skip (weight_of_isBlank ht)
  | comma hb ht _ ih => exact (ih tallied_empty hts.tail).next hf hb (weight_of_isComma ht)
  | @conjunction f t ts p hb ht _ ih =>
    have hw : t.weight = 0 := weight_of_kind (by simp [ht]) (by simp [ht])
    have hx := hts.lexical t List.mem_cons_self
    have h := ih (tallied_empty.pushToken hx (by simp [ht]) (by simp [ht])) hts.tail
    rw [pushToken_depth, hw] at h
    exact h.next hf hb hw
  | @comment f t ts p ht _ ih =>
    have hx := hts.lexical t List.mem_cons_self
    have hw : t.weight = 0 := weight_of_kind (by simp [ht]) (by simp [ht])
    exact (ih (hf.pushComment hx ht fun e ↦ hts.line e t List.mem_cons_self) hts.tail).skip hw
  | @token f t ts p hb hc _ ih =>
    have hx := hts.lexical t List.mem_cons_self
    exact (ih (hf.pushToken hx (by simpa [isBlank] using hb) hc) hts.tail).push

/-- What parentheses enclose, with them. -/
theorem tally_parenthesized {b : List Token} (h : Legible lines (b ++ t :: us))
    (ht : t.isCloseParen = true) (hb : Balanced b) :
    tally lines ('(' :: textOf b ++ ")") = some (0, false) := by
  have htext : t.text = [')'] := by
    simp only [isCloseParen, Bool.and_eq_true, decide_eq_true_eq] at ht
    exact ht.2
  have hs : (scan (textOf (b ++ t :: us))).tokens = b ++ t :: us := by rw [h.lexed]
  have hl := (leads_of_scan hs).2
  have hb' : opensComment b = false := opensComment_left _ _ h.slash
  have := @tally_leads lines _ [')'] b ')' hl hb'
    (fun e u hu ↦ h.line e u (List.mem_append_left _ hu)) (by rw [textOf_cons, htext]; rfl)
    rfl (by decide)
  have e : ('(' :: textOf b ++ ")" : Text) = '(' :: (textOf b ++ [')']) := rfl
  rw [e, tally_opening, this, tally_closing, tally_nil, weigh_of_balanced hb]
  rfl

/-- After a text that ends in a point the tokens `ts` open no parenthesis. -/
def GoesOn (f : Fragment) (ts : List Token) : Prop :=
  f.text.getLast? = some '.' → ∀ o ∈ (ts.dropWhile isBlank).head?, o.isOpenParen = false

theorem GoesOn.isOpenParen (h : GoesOn f (t :: ts)) (ht : t.isBlank = false)
    (hf : f.text.getLast? = some '.') :
    t.isOpenParen = false :=
  h hf t (by rw [List.dropWhile_cons_of_neg (by simp [ht])]; rfl)

theorem goesOn_pushToken (ht : t.text ≠ []) (h : pointFree (t :: ts) = true) :
    GoesOn (f.pushToken t) ts := by
  intro hl o ho
  rw [Fragment.pushToken, List.getLast?_append, List.getLast?_eq_some_getLast ht, Option.some_or,
    ← List.getLast?_eq_some_getLast ht] at hl
  simp only [pointFree, hl, Bool.and_eq_true] at h
  have h := h.1
  rw [Option.mem_def] at ho
  rw [ho] at h
  simpa using h

theorem GoesOn.blank (h : GoesOn f (t :: ts)) (ht : t.isBlank = true) : GoesOn f ts := by
  intro hl o ho
  exact h hl o (by rwa [List.dropWhile_cons_of_pos ht])

/-- The name of a table after a join phrase, perhaps with the arguments of a table function. -/
theorem tableName_tally (even : Bool) {p : Text × List Token} (h : Join.tableName rest f ts = .ok p)
    (hf : f.Tallied lines) (hts : Legible lines ts) :
    p.2 <:+ ts ∧ ∃ n, tally lines p.1 = some (n, false) ∧ n + weigh p.2 = f.depth + weigh ts ∧
      (Closes even f.depth ts → Allowed even f.depth → (even = true → GoesOn f ts) →
          Allowed even n ∧ Closes even 0 p.2) := by
  fun_induction Join.tableName rest f ts with
  | case1 f =>
    obtain rfl := eq_of_atEnd h
    exact ⟨List.suffix_rfl, _, hf.text, rfl, fun hc ha _ ↦ ⟨ha, hc.restart ha⟩⟩
  | case2 f t ts hb ih =>
    obtain ⟨h₁, n, h₂, h₃, h₄⟩ := ih h hf hts.tail
    have hw := weight_of_isBlank hb
    exact ⟨h₁.trans (List.suffix_cons t ts), n, h₂, by rw [h₃, weigh_cons, hw, Int.zero_add],
      fun hc ha hg ↦ h₄ (hc.skip_token hw) ha fun e ↦ (hg e).blank hb⟩
  | case3 f t ts hb hp ih =>
    have hx := hts.lexical t List.mem_cons_self
    obtain ⟨hp, hc⟩ : (t.text = ['.'] ∨ f.text.getLast? = some '.') ∧ t.kind ≠ .comment := by
      simpa using hp
    obtain ⟨h₁, n, h₂, h₃, h₄⟩ := ih h (hf.pushToken hx (by simpa [isBlank] using hb) hc) hts.tail
    refine ⟨h₁.trans (List.suffix_cons t ts), n, h₂,
      by rw [h₃, pushToken_depth, weigh_cons, Int.add_assoc], fun hcl ha hg ↦ ?_⟩
    -- the token after a point is no parenthesis, as none opens there and none is left to close
    have hw : Allowed even t.weight := by
      intro e
      have ho : t.isOpenParen = false := by
        rcases hp with h | h
        · simp [isOpenParen, h]
        · exact (hg e).isOpenParen (Bool.eq_false_iff.2 hb) h
      obtain ⟨-, d, hd, hr⟩ := hcl.restart ha e
      obtain rfl : d = 0 := by omega
      have hcp : t.isCloseParen = false := by
        cases hcp : t.isCloseParen with
        | false => rfl
        | true => simp [depthRun, ho, hcp] at hr
      simp [weight, ho, hcp]
    have hd := pushToken_depth f t
    exact h₄ (hd ▸ hcl.tail) (hd ▸ ha.add hw) fun e ↦ goesOn_pushToken hx.text_ne_nil (hcl e).1
  | case4 => cases h
  | case5 f t ts hb hp ho body us hg ih =>
    obtain ⟨hbal, e, he, rfl⟩ := group_eq_ok hg
    have ho : t.isOpenParen = true := by
      simp only [Bool.and_eq_true] at ho
      exact ho.1
    have hsuf : us <:+ t :: (body ++ e :: us) := ⟨t :: (body ++ [e]), by simp⟩
    have hpush : (f.pushText ('(' :: textOf body ++ ")")).Tallied lines :=
      hf.pushText (tally_parenthesized hts.tail he hbal) (by simp [Delimited]; decide) (by simp)
    obtain ⟨h₁, n, h₂, h₃, h₄⟩ := ih h hpush (hts.suffix hsuf)
    refine ⟨h₁.trans hsuf, n, h₂, by rw [h₃, weigh_group ho he hbal]; rfl, fun hc ha _ ↦ h₄ (hc.group ho he hbal) ha fun _ hl ↦ ?_⟩
    have hlast : (f.pushText ('(' :: textOf body ++ ")")).text.getLast? = some ')' := by
      rw [Fragment.pushText, ← List.append_assoc, List.getLast?_append]
      rfl
    rw [hlast] at hl
    cases hl
  | case6 f t ts hb hp ho =>
    obtain rfl := Except.ok.inj h
    exact ⟨List.suffix_rfl, _, hf.text, rfl, fun hc ha _ ↦ ⟨ha, hc.restart ha⟩⟩

/-- A word of an alias is a token, and a line comment only with `lines`. -/
def IsWord (lines : Bool) (x : Text) : Prop :=
  ∃ t : Token, t.text = x ∧ Lexical t ∧ (lines = false → t.isLineComment = false) ∧
    amount lines x = t.weight

theorem IsWord.amount (h : IsWord lines x) :
    amount lines x = (if x = ['('] then 1 else 0) - if x = [')'] then 1 else 0 := by
  obtain ⟨t, rfl, -, -, ha⟩ := h
  by_cases ho : t.text = ['(']
  · have e : tally lines ['('] = some (1, false) := by rw [tally_opening, tally_nil]; rfl
    rw [ho, amount_of_tally e]
    rfl
  by_cases hc : t.text = [')']
  · have e : tally lines [')'] = some (-1, false) := by rw [tally_closing, tally_nil]; rfl
    rw [hc, amount_of_tally e]
    rfl
  · rw [ha, weight_of_text ho hc, if_neg ho, if_neg hc]
    rfl

/-- The aliases of a join have as many opening as closing parentheses among them. -/
def Join.AliasesClose (j : Join Query) : Prop := j.aliases.count ['('] = j.aliases.count [')']

instance (j : Join Query) : Decidable j.AliasesClose := inferInstanceAs (Decidable (_ = _))

theorem sum_words {xs : List Text} (h : ∀ x ∈ xs, IsWord lines x) :
    (xs.map (amount lines)).sum = xs.count ['('] - xs.count [')'] := by
  induction xs with
  | nil => rfl
  | cons x xs ih =>
    obtain ⟨hx, h⟩ := List.forall_mem_cons.1 h
    rw [List.map_cons, List.sum_cons, ih h, hx.amount, List.count_cons, List.count_cons]
    simp only [beq_iff_eq]
    by_cases ho : x = ['(']
    · rw [if_pos ho, if_pos ho, if_neg (by simp [ho]), if_neg (by simp [ho])]
      omega
    · rw [if_neg ho, if_neg ho]
      split <;> omega

/-- The words after a join source. -/
theorem aliasWords_tally {p : (List Text × Option Token) × List Token}
    (h : Join.aliasWords rest ts = .ok p) (hts : Legible lines ts) :
    ∃ us, ts = us ++ p.2 ∧ weigh us = (p.1.1.map (amount lines)).sum ∧
      ∀ x ∈ p.1.1, IsWord lines x := by
  induction ts generalizing p with
  | nil =>
    obtain rfl := eq_of_atEnd h
    exact ⟨[], rfl, rfl, List.forall_mem_nil _⟩
  | cons t ts ih =>
    rw [Join.aliasWords] at h
    split at h
    · rename_i hb
      obtain ⟨us, rfl, hu, hw⟩ := ih h hts.tail
      exact ⟨t :: us, rfl, by rw [weigh_cons, weight_of_isBlank hb, Int.zero_add, hu], hw⟩
    split at h
    · rename_i hk
      obtain rfl := Except.ok.inj h
      exact ⟨[t], rfl, by rw [weigh_cons, weight_of_kind (by simp [hk]) (by simp [hk])]; rfl, List.forall_mem_nil _⟩
    split at h
    · obtain rfl := Except.ok.inj h
      exact ⟨[], rfl, rfl, List.forall_mem_nil _⟩
    · obtain ⟨q, hq, rfl⟩ := ok_of_map h
      obtain ⟨us, rfl, hu, hw⟩ := ih hq hts.tail
      have hx := hts.lexical t List.mem_cons_self
      have hl := fun e ↦ hts.line e t List.mem_cons_self
      obtain ⟨b, hb⟩ := tally_alone hx hl
      have ha := amount_of_tally hb
      refine ⟨t :: us, rfl, ?_, List.forall_mem_cons.2 ⟨⟨t, rfl, hx, hl, ha⟩, hw⟩⟩
      rw [weigh_cons, hu, List.map_cons, List.sum_cons, ha]

/-- Columns, each of which closes its own parentheses. -/
structure Columns (lines even : Bool) (ts : List Token) (p : List Text × List Token) : Prop where
  suffix : p.2 <:+ ts
  total : weigh p.2 = weigh ts
  tallied : ∀ x ∈ p.1, ∃ b, tally lines x = some (0, b)
  closes : Closes even 0 ts → Closes even 0 p.2

theorem Columns.skip (h : Columns lines even ts p) (hw : t.weight = 0) :
    Columns lines even (t :: ts) p where
  suffix := h.suffix.trans (List.suffix_cons t ts)
  total := by rw [weigh_cons, hw, Int.zero_add, h.total]
  tallied := h.tallied
  closes hc := h.closes (hc.skip_token hw)

theorem columnNames_tally (h : Join.columnNames rest ts = .ok p) (hts : Legible lines ts) :
    Columns lines even ts p := by
  induction ts generalizing p with
  | nil =>
    obtain rfl := eq_of_atEnd h
    exact ⟨List.suffix_rfl, rfl, nofun, id⟩
  | cons t ts ih =>
    rw [Join.columnNames] at h
    split at h
    · rename_i hb
      refine (ih h hts.tail).skip ?_
      rcases (Bool.or_eq_true _ _).mp hb with hb | hb
      · exact weight_of_isBlank hb
      · exact weight_of_isComma hb
    split at h
    · rename_i hk
      simp only [Bool.or_eq_true, decide_eq_true_eq] at hk
      have hw : t.weight = 0 := by
        rcases hk with hk | hk <;> exact weight_of_kind (by simp [hk]) (by simp [hk])
      have hl : t.isLineComment = false := by
        rcases hk with hk | hk <;> exact not_isLineComment (by simp [hk])
      obtain ⟨q, hq, rfl⟩ := ok_of_map h
      have hq := (ih hq hts.tail).skip hw
      refine ⟨hq.suffix, hq.total, List.forall_mem_cons.2 ⟨⟨false, ?_⟩, hq.tallied⟩, hq.closes⟩
      rw [tally_lexical (hts.lexical t List.mem_cons_self) hl, hw]
    · obtain rfl := Except.ok.inj h
      exact ⟨List.suffix_rfl, rfl, nofun, id⟩

theorem expectToken_eq_ok {expected : Text} {p : Token × List Token}
    (h : expectToken expected rest ts = .ok p) :
    ∃ gs, ts = gs ++ p.1 :: p.2 ∧ ∀ u ∈ gs, u.isBlank = true := by
  rw [expectToken] at h
  split at h
  · rename_i e
    obtain rfl := Except.ok.inj h
    refine ⟨ts.takeWhile isBlank, ?_, List.all_eq_true.1 List.all_takeWhile⟩
    rw [← e, List.takeWhile_append_dropWhile]
  · obtain ⟨-, -, h⟩ := ok_of_bind h
    cases h

theorem weigh_blanks {gs : List Token} (h : ∀ u ∈ gs, u.isBlank = true) : weigh gs = 0 := by
  induction gs with
  | nil => rfl
  | cons g gs ih =>
    obtain ⟨hg, h⟩ := List.forall_mem_cons.1 h
    rw [weigh_cons, weight_of_isBlank hg, ih h]
    rfl

theorem Columns.blanks {gs : List Token} (h : Columns lines even ts p)
    (hg : ∀ u ∈ gs, u.isBlank = true) :
    Columns lines even (gs ++ ts) p where
  suffix := h.suffix.trans (List.suffix_append gs ts)
  total := by rw [weigh_append, weigh_blanks hg, Int.zero_add, h.total]
  tallied := h.tallied
  closes hc := h.closes (hc.skip (weigh_blanks hg))

theorem argumentsOf_tally {b : List Token} (h : Legible lines b) (hb : Balanced b) :
    ∀ x ∈ argumentsOf b, ∃ e, tally lines x = some (0, e) := by
  intro x hx
  rw [argumentsOf] at hx
  split at hx
  · cases hx
  · obtain ⟨r, hr, rfl⟩ := List.mem_map.1 hx
    have hcomma : ∀ t : Token, t.isComma = true → t.kind ≠ .opening ∧ t.kind ≠ .closing := by
      intro t ht
      simp only [isComma, Bool.and_eq_true, decide_eq_true_eq] at ht
      simp [ht.1]
    obtain ⟨e, he⟩ := (h.runs (fun t ht ↦ .inr (.inl ht)) hr).tally
    rw [weigh_of_balanced (balanced_of_mem_splitOutside hcomma hb r hr).1] at he
    exact tally_trim he

theorem usingColumns_tally (even : Bool) (h : Join.usingColumns rest ts = .ok p)
    (hts : Legible lines ts) : Columns lines even ts p := by
  obtain ⟨q, he, h'⟩ := ok_of_bind h
  obtain ⟨gs, rfl, hg⟩ := expectToken_eq_ok he
  have hq : Legible lines (q.1 :: q.2) := hts.suffix (List.suffix_append gs _)
  split at h'
  · rename_i ho
    obtain ⟨g, hgr, rfl⟩ := ok_of_map h'
    obtain ⟨hb, e, hc, hu⟩ := group_eq_ok hgr
    rw [hu] at hq ⊢
    exact Columns.blanks ⟨⟨q.1 :: (g.1 ++ [e]), by simp⟩, (weigh_group ho hc hb).symm,
      argumentsOf_tally (hq.tail.left (.inl hc)) hb, fun hcl ↦ hcl.group ho hc hb⟩ hg
  · exact (columnNames_tally h' hq).blanks hg

theorem eq_of_someItems {expected : Text} {q : List Text × List Token}
    (h : Join.someItems expected rest q = .ok p) : q = p := by
  rw [Join.someItems] at h
  split at h
  · cases h
  · exact Except.ok.inj h

/-- What stands after the source of a join. -/
structure TailTallied (lines even : Bool) (ts : List Token) (p : Join Query × List Token) :
    Prop where
  suffix : p.2 <:+ ts
  aliases : ∀ x ∈ p.1.aliases, IsWord lines x
  columns : ∀ x ∈ p.1.columns, ∃ b, tally lines x = some (0, b)
  predicates : ∀ x ∈ p.1.predicates, ∃ n, tally lines x = some (n, false)
  total : (p.1.predicates.map (amount lines)).sum + (p.1.aliases.map (amount lines)).sum +
    weigh p.2 = weigh ts
  closes : Closes even 0 ts → Allowed even (p.1.aliases.map (amount lines)).sum →
    (∀ x ∈ p.1.predicates, Allowed even (amount lines x)) ∧ Closes even 0 p.2

theorem readTail_tally (even : Bool) {k : Text} {s : Source Query} {p : Join Query × List Token}
    (h : Join.readTail { kind := k, source := s } rest ts = .ok p) (hts : Legible lines ts) :
    p.1.kind = k ∧ p.1.source = s ∧ TailTallied lines even ts p := by
  obtain ⟨q, hq, h'⟩ := ok_of_bind h
  obtain ⟨us, rfl, hw, hal⟩ := aliasWords_tally hq hts
  have hsuf := List.suffix_append us q.2
  have hqs := hts.suffix hsuf
  have start : Closes even 0 (us ++ q.2) → Allowed even (q.1.1.map (amount lines)).sum →
      Closes even 0 q.2 := by
    intro hc ha
    have hc := hc.append
    rw [Int.zero_add, hw] at hc
    exact hc.restart ha
  dsimp only at h'
  split at h'
  · obtain rfl := Except.ok.inj h'
    refine ⟨rfl, rfl, hsuf, hal, nofun, nofun, ?_, fun hc ha ↦ ⟨nofun, start hc ha⟩⟩
    rw [weigh_append, hw]
    simp
  split at h'
  · obtain ⟨c, hc, rfl⟩ := ok_of_map h'
    have hcol := usingColumns_tally even hc hqs
    refine ⟨rfl, rfl, hcol.suffix.trans hsuf, hal, hcol.tallied, nofun, ?_,
      fun hc ha ↦ ⟨nofun, hcol.closes (start hc ha)⟩⟩
    rw [weigh_append, hw, hcol.total]
    simp
  · obtain ⟨c, hc, rfl⟩ := ok_of_map h'
    obtain ⟨c', hc', hs⟩ := ok_of_bind hc
    obtain rfl := eq_of_someItems hs
    have hcon : Parted lines even 0 q.2 _ := (collects_conditions hc').parted tallied_empty hqs
    refine ⟨rfl, rfl, hcon.suffix.trans hsuf, hal, nofun, hcon.tallied, ?_,
      fun hc ha ↦ hcon.closes (start hc ha)⟩
    have ht := hcon.total
    have hz : ({} : Fragment).depth = 0 := rfl
    rw [weigh_append, hw]
    dsimp only
    omega

/-- What stands after a join phrase. -/
def SourceTallied (lines even : Bool) (ts : List Token) : Join.Start × List Token → Prop
  | (.arrays xs, us) => Parted lines even 0 ts (xs, us)
  | (.table x, us) => us <:+ ts ∧ ∃ n, tally lines x = some (n, false) ∧ n + weigh us = weigh ts ∧
      (Closes even 0 ts → Allowed even n ∧ Closes even 0 us)
  | (.subquery b, us) => Balanced b ∧ ∃ gs o e, ts = gs ++ o :: (b ++ e :: us) ∧
      (∀ u ∈ gs, u.isBlank = true) ∧
      o.isOpenParen = true ∧ e.isCloseParen = true

theorem readSource_tally (even : Bool) {p : Join.Start × List Token}
    (h : Join.readSource t rest ts = .ok p) (hts : Legible lines ts) :
    SourceTallied lines even ts p := by
  rw [Join.readSource] at h
  split at h
  · obtain ⟨q, hq, rfl⟩ := ok_of_map h
    obtain ⟨q', hq', hs⟩ := ok_of_bind hq
    obtain rfl := eq_of_someItems hs
    exact (collects_arrays hq').parted tallied_empty hts
  obtain ⟨q, he, h'⟩ := ok_of_bind h
  obtain ⟨gs, rfl, hg⟩ := expectToken_eq_ok he
  have hq : Legible lines (q.1 :: q.2) := hts.suffix (List.suffix_append gs _)
  split at h'
  · rename_i ho
    obtain ⟨g, hgr, rfl⟩ := ok_of_map h'
    obtain ⟨hb, e, hc, hu⟩ := group_eq_ok hgr
    exact ⟨hb, gs, q.1, e, by rw [hu], hg, ho, hc⟩
  split at h'
  · rename_i hk
    simp only [Bool.or_eq_true, decide_eq_true_eq, or_assoc] at hk
    obtain ⟨nm, hn, rfl⟩ := ok_of_map h'
    have hx := hq.lexical q.1 List.mem_cons_self
    have hw : q.1.weight = 0 := by
      rcases hk with hk | hk | hk <;> exact weight_of_kind (by simp [hk]) (by simp [hk])
    have hb : q.1.kind ≠ .blank := by rcases hk with hk | hk | hk <;> simp [hk]
    have hc : q.1.kind ≠ .comment := by rcases hk with hk | hk | hk <;> simp [hk]
    obtain ⟨h₁, n, h₂, h₃, h₄⟩ := tableName_tally even hn (tallied_empty.pushToken hx hb hc) hq.tail
    have hd : (Fragment.pushToken q.1 {}).depth = 0 := by rw [pushToken_depth, hw]; rfl
    have hsuf : nm.2 <:+ gs ++ q.1 :: q.2 := h₁.trans ⟨gs ++ [q.1], by simp⟩
    refine ⟨hsuf, n, h₂, ?_, fun hcl ↦ ?_⟩
    · rw [weigh_append, weigh_blanks hg, weigh_cons, hw]
      omega
    · have hcl := hcl.skip (weigh_blanks hg)
      refine h₄ ?_ (fun _ ↦ hd) fun e ↦ goesOn_pushToken hx.text_ne_nil (hcl e).1
      rw [hd]
      exact hcl.skip_token hw
  · cases h'

end QueryTemplate
