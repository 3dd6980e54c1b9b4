import QueryTemplate.Proofs.Join.Form
import QueryTemplate.Proofs.Join.Run
namespace QueryTemplate

open Token Fragment Grammar

variable {f : Fragment} {t u : Token} {ts us vs gs r : List Token} {rs : List (List Token)}
    {d e : Nat}

/-- Tokens before which an expression ends: there are none, or a clause or a join comes first. -/
def Halts (ts : List Token) : Prop :=
  ∀ t ∈ (ts.dropWhile isBlank).head?, isBreak t = true ∧ Lexical t

theorem halts_nil : Halts [] := nofun

theorem halts_cons (h : isBreak t = true) (hl : Lexical t) (ts : List Token) : Halts (t :: ts) := by
  have hb : t.isBlank = false := by
    simp only [isBreak, Bool.or_eq_true, decide_eq_true_eq] at h
    rcases h with h | h <;> simp [Token.isBlank, h]
  rw [Halts, List.dropWhile_cons_of_neg (by simp [hb])]
  simpa using ⟨h, hl⟩

theorem Halts.blanks (hg : ∀ g ∈ gs, g.isBlank = true) (h : Halts ts) : Halts (gs ++ ts) := by
  rwa [Halts, List.dropWhile_append_of_pos hg]

/-- A result that leaves the tokens `us` unread, but for blanks before them. -/
def Leaves {α : Type} (us : List Token) (r : Except Error (α × List Token)) (x : α) : Prop :=
  ∃ vs, r = .ok (x, vs) ∧ vs.dropWhile isBlank = us.dropWhile isBlank

/-- What has no place outside of parentheses ends nothing in an expression. -/
theorem and_eq_false_of_covered {p : Token → Bool} (hf : f.depth = d) (h : Covered p d (t :: ts)) :
    (f.isBalanced && p t) = false := by
  rw [Bool.and_eq_false_iff]
  by_cases hb : f.isBalanced = true
  · obtain rfl := (isBalanced_iff hf).1 hb
    exact .inr ((covered_cons.1 h).1 (by simp [standing]))
  · exact .inl (Bool.eq_false_iff.2 hb)

theorem depthRun_inked (d : Nat) (ts : List Token) : depthRun d (inked ts) = depthRun d ts := by
  induction ts generalizing d with
  | nil => rfl
  | cons t ts ih =>
    cases hb : t.isBlank with
    | true =>
      have hk : t.kind = .blank := by simpa [Token.isBlank] using hb
      rw [inked_cons_blank hb, ih]
      simp [depthRun, isOpenParen, isCloseParen, hk]
    | false => simp only [inked_cons hb, depthRun, ih]

theorem covered_inked {p : Token → Bool} (hp : ∀ t, p t = true → t.isBlank = false) :
    Covered p d (inked ts) ↔ Covered p d ts := by
  rw [Covered, sections_inked hp, List.map_eq_nil_iff, Covered]

theorem isBlank_of_endsExpression (h : endsExpression t = true) : t.isBlank = false := by
  simp only [endsExpression, isBreak, Bool.or_eq_true, decide_eq_true_eq] at h
  rcases h with (h | h) | h <;> simp [Token.isBlank, h]

theorem isBlank_of_isComma (h : t.isComma = true) : t.isBlank = false := by
  rw [eq_comma h]
  rfl

theorem IsPhrase.of_inked (h : IsPhrase (inked ts)) : IsPhrase ts :=
  ⟨(depthRun_inked 0 ts).symm.trans h.1, (covered_inked fun _ ↦ isBlank_of_endsExpression).1 h.2⟩

theorem written_eq (ts : List Token) : written ts = Fragment.extend {} ts := rfl

theorem written_congr (h : inked ts = inked us) : written ts = written us := extend_congr h {}

theorem itemOf?_congr (h : inked ts = inked us) : itemOf? ts = itemOf? us := by
  rw [itemOf?, itemOf?, written_congr h, h]

namespace Firm

theorem take?_written (h : Firm ts) : (written ts).take? = itemOf? ts := by
  obtain ⟨q, hq⟩ := endsIn_extend endsIn_empty h
  rw [written_eq, hq.take? (clean_extend clean_empty ts), itemOf?]
  refine if_congr ⟨fun e ↦ ?_, fun e ↦ ?_⟩ rfl rfl
  · by_contra hne
    obtain ⟨t, us, hw, hb⟩ := exists_woven (f := {}) rfl hne
    have hm : t ∈ inked (woven {} ts) := by
      rw [hw, inked_cons hb]
      exact List.mem_cons_self
    rw [inked_woven] at hm
    rw [text_extend, hw] at e
    have hne := (h t (List.mem_filter.1 hm).1).1.text_ne_nil
    simp [hne] at e
  · rw [Fragment.extend, e, List.foldl_nil]

theorem space (h : Firm ts) : Firm (Token.space :: ts) :=
  List.forall_mem_cons.2 ⟨⟨⟨[], by decide +kernel⟩, by decide⟩, h⟩

theorem woven (h : Firm ts) (f : Fragment) : Firm (woven f ts) := by
  induction ts generalizing f with
  | nil => exact h
  | cons t ts ih =>
    obtain ⟨ht, hts⟩ := List.forall_mem_cons.1 h
    cases hb : t.isBlank with
    | true =>
      rw [woven_blank hb]
      exact ih hts f
    | false =>
      have hr : Firm (t :: QueryTemplate.woven (f.pushToken t) ts) :=
        List.forall_mem_cons.2 ⟨ht, ih hts _⟩
      rw [woven_cons hb, spacing]
      split
      · exact hr.space
      · exact hr

theorem spell (h : Firm ts) : Firm (spell ts) := by
  rw [QueryTemplate.spell]
  split
  · exact nofun
  · exact (h.woven {}).space

end Firm

/-- Some tokens are an expression that is no list. -/
structure Enters (ts : List Token) : Prop where
  firm : Firm ts
  entry : IsEntry (inked ts)

namespace Enters

theorem spell (h : Enters ts) : Enters (spell ts) :=
  ⟨h.firm.spell, by rw [inked_spell]; exact h.entry⟩

theorem balanced (h : Enters ts) : Balanced ts := h.entry.1.2.of_inked.1

theorem take? (h : Enters ts) : (written ts).take? = some (written ts).text := by
  rw [h.firm.take?_written, itemOf?, if_neg h.entry.1.1]

end Enters

/-- Expressions with commas between them. -/
def commaList (x : List Token) (xs : List (List Token)) : List Token := x ++ xs.flatMap (comma :: ·)

theorem commaList_cons (x y : List Token) (ys : List (List Token)) :
    commaList x (y :: ys) = x ++ ([comma] ++ commaList y ys) := by
  simp [commaList]

namespace Join

theorem arrays_extend (hf : f.depth = d) (hd : depthRun d ts = some e)
    (hc : Covered endsExpression d ts) (hs : Covered isComma d ts)
    (hk : ∀ t ∈ ts, t.kind ≠ .comment) (us : List Token) :
    arrays [] f (ts ++ us) = arrays [] (f.extend ts) us := by
  induction ts generalizing f d with
  | nil => rfl
  | cons t ts ih =>
    obtain ⟨hk, hks⟩ := List.forall_mem_cons.1 hk
    obtain ⟨hdt, hft⟩ := depthRun_cons (f := f) hd
    have hct := (covered_cons.1 hc).2
    have hst := (covered_cons.1 hs).2
    have hends := and_eq_false_of_covered hf hc
    rw [endsExpression, isBreak] at hends
    rw [List.cons_append, arrays]
    cases hb : t.isBlank with
    | true =>
      have ha : after (standing d t) t = d := by
        have hk : t.kind = .blank := by simpa [Token.isBlank] using hb
        simp [after, standing, isOpenParen, isCloseParen, hk]
      rw [ha] at hdt hct hst
      rw [extend_blank hb, if_pos rfl, ih hf hdt hct hst hks]
    | false =>
      rw [extend_cons hb, if_neg (by simp), hends, and_eq_false_of_covered hf hs, if_neg (by simp),
        if_neg (by simp), if_neg hk, ih (hft hf) hdt hct hst hks]

theorem arrays_halt (hf : f.isBalanced = true) (hu : Halts us) :
    arrays [] f us = .ok (f.take?.toList, us.dropWhile isBlank) := by
  induction us with
  | nil => rfl
  | cons t us ih =>
    rw [arrays]
    cases hb : t.isBlank with
    | true =>
      rw [Halts, List.dropWhile_cons_of_pos hb] at hu
      rw [if_pos rfl, ih hu, List.dropWhile_cons_of_pos hb]
    | false =>
      rw [Halts, List.dropWhile_cons_of_neg (by simp [hb])] at hu
      have ht := (hu t rfl).1
      rw [isBreak] at ht
      rw [if_neg (by simp), hf, ht, if_pos (by simp), List.dropWhile_cons_of_neg (by simp [hb])]

/-- The expressions after an array join. -/
theorem arrays_commaList {x : List Token} {xs : List (List Token)} (h : ∀ y ∈ x :: xs, Enters y)
    (hu : Halts us) :
    arrays [] {} (commaList x xs ++ us) =
      .ok ((x :: xs).map fun y ↦ (written y).text, us.dropWhile isBlank) := by
  induction xs generalizing x with
  | nil =>
    have hx := h x List.mem_cons_self
    have hw := hx.entry.1.2.of_inked
    rw [commaList, List.flatMap_nil, List.append_nil,
      arrays_extend rfl hx.balanced hw.2 ((covered_inked fun _ ↦ isBlank_of_isComma).1 hx.entry.2)
      (fun t ht ↦ (hx.firm t ht).2.1), arrays_halt _ hu, ← written_eq, hx.take?]
    · rfl
    · exact (isBalanced_iff (depth_extend rfl hx.balanced)).2 rfl
  | cons y xs ih =>
    obtain ⟨hx, hxs⟩ := List.forall_mem_cons.1 h
    have hw := hx.entry.1.2.of_inked
    have hbal : (Fragment.extend {} x).isBalanced = true :=
      (isBalanced_iff (depth_extend rfl hx.balanced)).2 rfl
    have hsplit : commaList x (y :: xs) ++ us = x ++ comma :: (commaList y xs ++ us) := by
      simp [commaList]
    rw [hsplit, arrays_extend rfl hx.balanced hw.2
      ((covered_inked fun _ ↦ isBlank_of_isComma).1 hx.entry.2) (fun t ht ↦ (hx.firm t ht).2.1),
      arrays, if_neg (by decide), if_neg (by simp [comma]), if_pos (by rw [hbal]; rfl), ih hxs,
      ← written_eq, hx.take?]
    rfl

/-- Neither a point nor a parenthesis comes next. -/
def EndsName (ts : List Token) : Prop :=
  ∀ t ∈ (ts.dropWhile isBlank).head?, t.text ≠ ['.'] ∧ t.isOpenParen = false

theorem endsName_cons (hl : Lexical t) (hk : Grammar.family t.kind = .identifier)
    (ts : List Token) : EndsName (t :: ts) := by
  have hkinds : ∀ k : Kind, family k = .identifier → startsKind k '.' = false ∧ k ≠ .opening ∧
      k ≠ .blank := by
    intro k
    cases k <;> decide
  obtain ⟨hs, ho, hb⟩ := hkinds t.kind hk
  rw [EndsName, List.dropWhile_cons_of_neg (by simp [Token.isBlank, hb])]
  intro u hu
  obtain rfl := Option.some.inj hu
  refine ⟨fun e ↦ ?_, by simp [isOpenParen, ho]⟩
  rw [hl.startsKind '.' (by rw [e]; rfl)] at hs
  cases hs

theorem EndsName.blanks (hg : ∀ g ∈ gs, g.isBlank = true) (h : EndsName ts) :
    EndsName (gs ++ ts) := by
  rwa [EndsName, List.dropWhile_append_of_pos hg]

theorem tableName_blanks (hg : ∀ g ∈ gs, g.isBlank = true) (f : Fragment) (ts : List Token) :
    tableName [] f (gs ++ ts) = tableName [] f ts := by
  induction gs with
  | nil => rfl
  | cons g gs ih =>
    obtain ⟨hg, hgs⟩ := List.forall_mem_cons.1 hg
    rw [List.cons_append, tableName, if_pos hg, ih hgs]

theorem tableName_end (hf : f.text.getLast? ≠ some '.') (hu : EndsName us) :
    tableName [] f us = .ok (f.text, us.dropWhile isBlank) := by
  induction us with
  | nil =>
    rw [tableName]
    rfl
  | cons t us ih =>
    rw [tableName]
    cases hb : t.isBlank with
    | true =>
      rw [EndsName, List.dropWhile_cons_of_pos hb] at hu
      rw [if_pos rfl, ih hu, List.dropWhile_cons_of_pos hb]
    | false =>
      rw [EndsName, List.dropWhile_cons_of_neg (by simp [hb])] at hu
      obtain ⟨h₁, h₂⟩ := hu t rfl
      rw [if_neg (by simp), if_neg (by simp [hf, h₁]), if_neg (by simp [h₂]),
        List.dropWhile_cons_of_neg (by simp [hb])]

theorem tableName_push (hb : t.isBlank = false) (hc : t.kind ≠ .comment)
    (h : t.text = ['.'] ∨ f.text.getLast? = some '.') (ts : List Token) :
    tableName [] f (t :: ts) = tableName [] (f.pushToken t) ts := by
  rw [tableName, if_neg (by simp [hb]), if_pos (by simp [h, hc])]

end Join

theorem exists_of_inked_eq_cons (h : inked ts = t :: us) :
    ∃ gs vs, ts = gs ++ t :: vs ∧ (∀ g ∈ gs, g.isBlank = true) ∧ t.isBlank = false ∧
      inked vs = us := by
  obtain ⟨gs, vs, rfl, hg, ht, hv⟩ := List.filter_eq_cons_iff.1 h
  exact ⟨gs, vs, rfl, by simpa using hg, by simpa using ht, hv⟩

theorem exists_of_inked_eq_append (h : inked ts = us ++ vs) :
    ∃ a b, ts = a ++ b ∧ inked a = us ∧ inked b = vs :=
  List.filter_eq_append_iff.1 h

theorem extend_blanks (hg : ∀ g ∈ gs, g.isBlank = true) (f : Fragment) (ts : List Token) :
    f.extend (gs ++ ts) = f.extend ts := by
  have hi : inked gs = [] := by simpa [inked] using hg
  exact extend_congr (by rw [inked_append, hi, List.nil_append]) f

namespace Join

/-- The rest of the name of a table. -/
theorem tableName_points {ns : List Token} (hf : f.EndsIn (some u)) (hn : isPoint u = false)
    (hts : Firm ts) (hi : inked ts = ns.flatMap fun n ↦ [point, n])
    (hk : ∀ n ∈ ns, n.kind = .identifier ∨ n.kind = .string) (hu : EndsName us) :
    tableName [] f (ts ++ us) = .ok ((f.extend ts).text, us.dropWhile isBlank) := by
  induction ns generalizing f u ts with
  | nil =>
    have hl : f.text.getLast? ≠ some '.' := by
      obtain ⟨h₁, h₂, h₃⟩ := hf.token u rfl
      rw [(hf.last u rfl).1]
      intro e
      rw [isPoint_of_getLast? h₁ h₂ h₃ e] at hn
      cases hn
    have hb := isBlank_of_inked hi
    rw [tableName_blanks hb, tableName_end hl hu, ← List.append_nil ts, extend_blanks hb,
      extend_nil]
  | cons n ns ih =>
    obtain ⟨hk, hks⟩ := List.forall_mem_cons.1 hk
    rw [List.flatMap_cons] at hi
    obtain ⟨gs, vs, rfl, hg, hp, hv⟩ := exists_of_inked_eq_cons hi
    obtain ⟨hs, ws, rfl, hh, hb, hw⟩ := exists_of_inked_eq_cons hv
    obtain ⟨hpl, hps⟩ := hts point (by simp)
    obtain ⟨hnl, hns⟩ := hts n (by simp)
    have hpush := hf.pushToken hpl hps.neat (by decide)
    have hpush' := hpush.pushToken hnl hns.neat (by rcases hk with hk | hk <;> simp [hk])
    have hlast : (f.pushToken point).text.getLast? = some '.' := (hpush.last point rfl).1
    have hnp : isPoint n = false := by rcases hk with hk | hk <;> simp [isPoint, hk]
    rw [List.append_assoc, tableName_blanks hg, List.cons_append,
      tableName_push hp (by decide) (.inl rfl), List.append_assoc, tableName_blanks hh,
      List.cons_append, tableName_push hb (by rcases hk with hk | hk <;> simp [hk]) (.inr hlast),
      ih hpush' hnp (hts.subset fun x hx ↦ by simp [hx]) hw hks, extend_blanks hg, extend_cons hp,
      extend_blanks hh, extend_cons hb]

theorem expectToken_blanks (expected : Text) (hg : ∀ g ∈ gs, g.isBlank = true)
    (ht : t.isBlank = false) (ts : List Token) :
    expectToken expected [] (gs ++ t :: ts) = .ok (t, ts) := by
  rw [expectToken, List.dropWhile_append_of_pos hg, List.dropWhile_cons_of_neg (by simp [ht])]

theorem readSource_arrays {x : List Token} {xs : List (List Token)} (ha : isArrayJoin t = true)
    (h : ∀ y ∈ x :: xs, Enters y) (hu : Halts us) : readSource t [] (commaList x xs ++ us) =
      .ok (.arrays ((x :: xs).map fun y ↦ (written y).text), us.dropWhile isBlank) := by
  rw [isArrayJoin] at ha
  rw [readSource, if_pos ha, arrays_commaList h hu]
  rfl

theorem readSource_table (ha : isArrayJoin t = false) (hn : IsName (inked r)) (hr : Firm r)
    (hu : EndsName us) :
    readSource t [] (r ++ us) = .ok (.table (written r).text, us.dropWhile isBlank) := by
  obtain ⟨n, ns, hi, hk⟩ := hn
  obtain ⟨hk, hks⟩ := List.forall_mem_cons.1 hk
  obtain ⟨gs, vs, rfl, hg, hb, hv⟩ := exists_of_inked_eq_cons hi
  obtain ⟨hl, hs⟩ := hr n (by simp)
  have hends := endsIn_empty.pushToken hl hs.neat (by rcases hk with hk | hk <;> simp [hk])
  have hp : isPoint n = false := by rcases hk with hk | hk <;> simp [isPoint, hk]
  have hread := tableName_points hends hp (hr.subset fun x hx ↦ by simp [hx]) hv hks hu
  rw [isArrayJoin] at ha
  rw [readSource, if_neg (Bool.eq_false_iff.1 ha), List.append_assoc, List.cons_append,
    expectToken_blanks _ hg hb, written_eq, extend_blanks hg, extend_cons hb]
  simp only [Except.bind, hread]
  rw [if_neg (by rcases hk with hk | hk <;> simp [isOpenParen, hk]),
    if_pos (by rcases hk with hk | hk <;> simp [hk])]
  rfl

theorem readSource_subquery {b : List Token} {o c : Token} (ha : isArrayJoin t = false)
    (hg : ∀ g ∈ gs, g.isBlank = true) (ho : o.isOpenParen = true) (hc : c.isCloseParen = true)
    (hb : Balanced b) (us : List Token) :
    readSource t [] (gs ++ o :: (b ++ c :: us)) = .ok (.subquery b, us) := by
  have hgr : group [] (b ++ c :: us) = .ok (b, us) := by rw [group, closing?_append hb hc]
  rw [isArrayJoin] at ha
  rw [readSource, if_neg (Bool.eq_false_iff.1 ha),
    expectToken_blanks _ hg (isBlank_of_isOpenParen ho).2.2.1]
  simp only [Except.bind, ho, if_true, hgr]
  rfl

end Join

end QueryTemplate
