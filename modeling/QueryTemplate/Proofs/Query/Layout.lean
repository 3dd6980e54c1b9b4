import QueryTemplate.Proofs.Query.Reads
import QueryTemplate.Proofs.Query.Spacing
import QueryTemplate.Proofs.Token.Locality
namespace QueryTemplate

open Token Fragment Grammar

/-- The tokens other than white space. -/
def inked (ts : List Token) : List Token := ts.filter fun t ↦ !t.isBlank

@[simp] theorem inked_nil : inked [] = [] := rfl

@[simp] theorem inked_append (a b : List Token) : inked (a ++ b) = inked a ++ inked b := List.filter_append ..

variable {t : Token} {ts us : List Token}

theorem inked_cons_blank (h : t.isBlank = true) (ts : List Token) : inked (t :: ts) = inked ts :=
  List.filter_cons_of_neg (by simp [h])

theorem inked_cons (h : t.isBlank = false) (ts : List Token) : inked (t :: ts) = t :: inked ts :=
  List.filter_cons_of_pos (by simp [h])

theorem isBlank_of_mem_inked (h : t ∈ inked ts) : t.isBlank = false := by
  simpa using (List.mem_filter.1 h).2

theorem inked_inked (ts : List Token) : inked (inked ts) = inked ts :=
  List.filter_eq_self.2 fun t h ↦ by simp [isBlank_of_mem_inked h]

theorem dropWhile_inked (ts : List Token) : (inked ts).dropWhile isBlank = inked (ts.dropWhile isBlank) := by
  induction ts with
  | nil => rfl
  | cons t ts ih =>
    cases h : t.isBlank with
    | true => rw [inked_cons_blank h, List.dropWhile_cons_of_pos h, ih]
    | false =>
      rw [List.dropWhile_cons_of_neg (by simp [h]), inked_cons h, List.dropWhile_cons_of_neg (by simp [h])]

theorem closing?_inked (d : Nat) (ts : List Token) :
    closing? d (inked ts) = (closing? d ts).map fun p ↦ (inked p.1, inked p.2) := by
  induction ts generalizing d with
  | nil => rfl
  | cons t ts ih =>
    cases h : t.isBlank with
    | true =>
      have hk : t.kind = .blank := by simpa [Token.isBlank] using h
      rw [inked_cons_blank h, ih]
      simp only [closing?, isOpenParen, isCloseParen, hk]
      cases closing? d ts with
      | none => rfl
      | some p => simp [inked_cons_blank h]
    | false =>
      rw [inked_cons h]
      have hc : ∀ e, ((closing? e (inked ts)).map fun p ↦ (t :: p.1, p.2)) =
          ((closing? e ts).map fun p ↦ (t :: p.1, p.2)).map fun p ↦ (inked p.1, inked p.2) := by
        intro e
        rw [ih]
        cases closing? e ts with
        | none => rfl
        | some p => simp [inked_cons h]
      simp only [closing?]
      split
      · exact hc _
      · split
        · cases d with
          | zero => rfl
          | succ d => exact hc d
        · exact hc d

theorem sections_inked {p : Token → Bool} (hp : ∀ t, p t = true → t.isBlank = false) (d : Nat) (ts : List Token) :
    sections p d (inked ts) =
      ⟨inked (sections p d ts).lead, (sections p d ts).parts.map fun q ↦ (q.1, inked q.2)⟩ := by
  induction ts generalizing d with
  | nil => rfl
  | cons t ts ih =>
    cases h : t.isBlank with
    | true =>
      have hk : t.kind = .blank := by simpa [Token.isBlank] using h
      have hpt : p t = false := Bool.eq_false_iff.2 fun e ↦ by simp [hp t e] at h
      rw [inked_cons_blank h, ih]
      simp [sections, hpt, standing, after, isOpenParen, isCloseParen, hk, inked_cons_blank h]
    | false =>
      rw [inked_cons h, sections, sections, ih]
      split
      · rfl
      · simp [inked_cons h]

theorem splitOutside_inked {p : Token → Bool} (hp : ∀ t, p t = true → t.isBlank = false) (ts : List Token) :
    splitOutside p (inked ts) = (splitOutside p ts).map inked := by
  rw [splitOutside, sections_inked hp, splitOutside, Sections.runs, Sections.runs, List.map_cons, List.map_map,
    List.map_map]
  rfl

/-- Two results are both answers, related by `R`, or both errors of one sort. -/
inductive Alike {α β : Type} (R : α → β → Prop) : Except Error α → Except Error β → Prop
  | ok {a : α} {b : β} : R a b → Alike R (.ok a) (.ok b)
  | error {e e' : Error} : e.kind = e'.kind → Alike R (.error e) (.error e')

namespace Alike

variable {α β γ δ : Type} {R : α → β → Prop} {S : γ → δ → Prop} {r : Except Error α} {r' : Except Error β}

theorem bind {f : α → Except Error γ} {g : β → Except Error δ} (h : Alike R r r')
    (hf : ∀ a b, R a b → Alike S (f a) (g b)) : Alike S (r.bind f) (r'.bind g) := by
  cases h with
  | ok h => exact hf _ _ h
  | error h => exact .error h

theorem map {f : α → γ} {g : β → δ} (h : Alike R r r') (hf : ∀ a b, R a b → S (f a) (g b)) :
    Alike S (r.map f) (r'.map g) := by
  cases h with
  | ok h => exact .ok (hf _ _ h)
  | error h => exact .error h

theorem mono {Q : α → β → Prop} (h : Alike R r r') (hq : ∀ a b, R a b → Q a b) : Alike Q r r' := by
  cases h with
  | ok h => exact .ok (hq _ _ h)
  | error h => exact .error h

theorem mapError_eq {r r' : Except Error α} (h : Alike Eq r r') : r.mapError Error.kind = r'.mapError Error.kind := by
  cases h with
  | ok h => exact congrArg Except.ok h
  | error h => exact congrArg Except.error h

theorem mapM {f g : α → Except Error γ} {xs : List α} (h : ∀ x ∈ xs, Alike Eq (f x) (g x)) :
    Alike Eq (xs.mapM f) (xs.mapM g) := by
  induction xs with
  | nil => exact .ok rfl
  | cons x xs ih =>
    obtain ⟨hx, hxs⟩ := List.forall_mem_cons.1 h
    rw [List.mapM_cons, List.mapM_cons]
    refine hx.bind fun a b hab ↦ (ih hxs).bind fun as bs habs ↦ .ok ?_
    rw [hab, habs]

end Alike

/-- What is left of the tokens `ts` on one side is left of their ink on the other. -/
def Trims (ts : List Token) {α : Type} (p q : α × List Token) : Prop :=
  q.1 = p.1 ∧ q.2 = inked p.2 ∧ p.2 <:+ ts

/-- What parentheses enclose, and what is left of the tokens `ts`, on one side and of their ink on the other. -/
def TrimsGroup (ts : List Token) (p q : List Token × List Token) : Prop :=
  q.1 = inked p.1 ∧ q.2 = inked p.2 ∧ p.1 <:+: ts ∧ p.2 <:+ ts

theorem group_inked (ts : List Token) : Alike (TrimsGroup ts) (group [] ts) (group [] (inked ts)) := by
  rw [group, group, closing?_inked]
  cases h : closing? 0 ts with
  | none => exact .error rfl
  | some p =>
    obtain ⟨e, -, rfl⟩ := closing?_eq_some h
    exact .ok ⟨rfl, rfl, (List.prefix_append _ _).isInfix, ⟨p.1 ++ [e], by simp⟩⟩

theorem expectToken_inked (expected : Text) (ts : List Token) :
    Alike (fun p q ↦ Trims ts p q ∧ inked ts = p.1 :: inked p.2) (expectToken expected [] ts)
      (expectToken expected [] (inked ts)) := by
  have hsuf := List.dropWhile_suffix isBlank (l := ts)
  have hink : inked ts = inked (ts.dropWhile isBlank) := by
    rw [← dropWhile_inked]
    cases h : inked ts with
    | nil => rfl
    | cons t us => exact (List.dropWhile_cons_of_neg (by simp [isBlank_of_mem_inked (h ▸ List.mem_cons_self)])).symm
  rw [expectToken, expectToken, dropWhile_inked]
  cases h : ts.dropWhile isBlank with
  | nil => exact .error rfl
  | cons t us =>
    have hb : t.isBlank = false := by
      have := List.head?_dropWhile_not isBlank ts
      rw [h] at this
      simpa using this
    rw [h] at hsuf hink
    rw [inked_cons hb] at hink ⊢
    exact .ok ⟨⟨rfl, rfl, (List.suffix_cons _ _).trans hsuf⟩, hink⟩

theorem callGroup_inked (name : Text) (ts : List Token) :
    Alike (TrimsGroup ts) (callGroup name [] ts) (callGroup name [] (inked ts)) := by
  refine (expectToken_inked _ ts).bind fun p q ⟨⟨h₁, h₂, h₃⟩, _⟩ ↦ ?_
  rw [h₁, h₂]
  split
  · exact (group_inked p.2).mono fun a b ⟨ha, hb, hi, hs⟩ ↦ ⟨ha, hb, hi.trans h₃.isInfix, hs.trans h₃⟩
  · exact .error rfl

theorem Trims.cons {α : Type} {p q : α × List Token} (h : Trims ts p q) (t : Token) : Trims (t :: ts) p q :=
  ⟨h.1, h.2.1, h.2.2.trans (List.suffix_cons t ts)⟩

theorem trims_all {α : Type} (ts : List Token) (a : α) : Trims ts (a, ts) (a, inked ts) :=
  ⟨rfl, rfl, List.suffix_refl ts⟩

theorem trims_map {α β : Type} {p q : α × List Token} (h : Trims ts p q) (f : α → β) :
    Trims ts (f p.1, p.2) (f q.1, q.2) := ⟨congrArg f h.1, h.2⟩

/-- Whether tokens go on with a name, with `point` after a point in it, and then with a parenthesis. -/
def callFollows (point : Bool) : List Token → Bool
  | [] => false
  | t :: ts =>
    if (t.text = ['.'] || point) && t.kind ≠ .comment then callFollows (t.text.getLast? = some '.') ts
    else t.isOpenParen

theorem callFollows_left {point : Bool} {a b : List Token} (h : callFollows point (a ++ b) = false) :
    callFollows point a = false := by
  induction a generalizing point with
  | nil => rfl
  | cons t a ih =>
    rw [List.cons_append, callFollows] at h
    rw [callFollows]
    split
    · rw [if_pos ‹_›] at h
      exact ih h
    · rwa [if_neg ‹_›] at h

/-- Whether a parenthesis follows the name of a table after a join phrase. -/
def callsTable : List Token → Bool
  | j :: t :: ts =>
    (j.kind = .join && !"array join".toList.isSuffixOf j.keyword &&
      (t.kind = .identifier || t.kind = .string || t.kind = .placeholder) &&
      callFollows (t.text.getLast? = some '.') ts) || callsTable (t :: ts)
  | _ => false

theorem callsTable_tail {ts : List Token} (h : callsTable (t :: ts) = false) : callsTable ts = false := by
  cases ts with
  | nil => rfl
  | cons u ts =>
    rw [callsTable, Bool.or_eq_false_iff] at h
    exact h.2

theorem callsTable_left {a b : List Token} (h : callsTable (a ++ b) = false) : callsTable a = false := by
  induction a with
  | nil => rfl
  | cons j a ih =>
    have ht := ih (callsTable_tail h)
    cases a with
    | nil => rfl
    | cons t a =>
      rw [List.cons_append, List.cons_append, callsTable, Bool.or_eq_false_iff] at h
      rw [callsTable, Bool.or_eq_false_iff]
      refine ⟨Bool.and_eq_false_iff.2 ((Bool.and_eq_false_iff.1 h.1).imp_right callFollows_left), ht⟩

theorem callsTable_part {a b : List Token} (h : callsTable b = false) (hab : a <:+: b) : callsTable a = false := by
  obtain ⟨x, y, rfl⟩ := hab
  rw [List.append_assoc] at h
  refine callsTable_left (b := y) ?_
  induction x with
  | nil => exact h
  | cons t x ih => exact ih (callsTable_tail h)

namespace Join

theorem arrays_inked (f : Fragment) (ts : List Token) : Alike (Trims ts) (arrays [] f ts) (arrays [] f (inked ts)) := by
  induction ts generalizing f with
  | nil => exact .ok (trims_all _ _)
  | cons t ts ih =>
    have ih := fun f ↦ (ih f).mono fun a b h ↦ h.cons t
    cases hb : t.isBlank with
    | true =>
      rw [inked_cons_blank hb, arrays, if_pos hb]
      exact ih f
    | false =>
      have hall := trims_all (t :: ts) f.take?.toList
      rw [inked_cons hb] at hall ⊢
      rw [arrays, arrays, hb]
      simp only [Bool.false_eq_true, if_false]
      split
      · exact .ok hall
      · split
        · exact (ih {}).map fun a b h ↦ trims_map h (f.take?.toList ++ ·)
        · split
          · exact ih _
          · exact ih _

theorem conditions_inked (f : Fragment) (ts : List Token) :
    Alike (Trims ts) (conditions [] f ts) (conditions [] f (inked ts)) := by
  induction ts generalizing f with
  | nil => exact .ok (trims_all _ _)
  | cons t ts ih =>
    have ih := fun f ↦ (ih f).mono fun a b h ↦ h.cons t
    cases hb : t.isBlank with
    | true =>
      rw [inked_cons_blank hb, conditions, if_pos hb]
      exact ih f
    | false =>
      have hall := trims_all (t :: ts) f.take?.toList
      rw [inked_cons hb] at hall ⊢
      rw [conditions, conditions, hb]
      simp only [Bool.false_eq_true, if_false]
      split
      · exact .ok hall
      · split
        · exact (ih _).map fun a b h ↦ trims_map h (f.take?.toList ++ ·)
        · split
          · exact ih _
          · exact ih _

theorem aliasWords_inked (ts : List Token) : Alike (fun p q ↦ Trims ts p q ∧ ∀ t ∈ p.1.2, t ∈ ts ∧ t.kind = .joinConstraint)
    (aliasWords [] ts) (aliasWords [] (inked ts)) := by
  induction ts with
  | nil => exact .ok ⟨trims_all _ _, nofun⟩
  | cons t ts ih =>
    have ih := ih.mono (Q := fun p q ↦ Trims (t :: ts) p q ∧ ∀ u ∈ p.1.2, u ∈ t :: ts ∧ u.kind = .joinConstraint)
      fun a b h ↦ ⟨h.1.cons t, fun u hu ↦ ⟨List.mem_cons_of_mem _ (h.2 u hu).1, (h.2 u hu).2⟩⟩
    cases hb : t.isBlank with
    | true =>
      rw [inked_cons_blank hb, aliasWords, if_pos hb]
      exact ih
    | false =>
      have hall := trims_all (t :: ts) (([] : List Text), (none : Option Token))
      rw [inked_cons hb] at hall ⊢
      rw [aliasWords, aliasWords, hb]
      simp only [Bool.false_eq_true, if_false]
      split
      · exact .ok ⟨(trims_all ts _).cons t, by simpa using ‹_›⟩
      · split
        · exact .ok ⟨hall, nofun⟩
        · exact ih.map fun a b h ↦ ⟨trims_map h.1 fun x ↦ (t.text :: x.1, x.2), h.2⟩

theorem someItems_inked {expected : Text} {p q : List Text × List Token} (h : Trims ts p q) :
    Alike (Trims ts) (someItems expected [] p) (someItems expected [] q) := by
  rw [someItems, someItems, h.1]
  split
  · exact .error rfl
  · exact .ok h

theorem tableName_inked {f : Fragment} (hl : ∀ t ∈ ts, t.text ≠ [])
    (hc : callFollows (f.text.getLast? = some '.') (inked ts) = false) :
    Alike (Trims ts) (tableName [] f ts) (tableName [] f (inked ts)) := by
  induction ts generalizing f with
  | nil =>
    rw [inked_nil, tableName]
    exact .ok (trims_all _ _)
  | cons t ts ih =>
    obtain ⟨ht, hl⟩ := List.forall_mem_cons.1 hl
    cases hb : t.isBlank with
    | true =>
      rw [inked_cons_blank hb] at hc ⊢
      rw [tableName, if_pos hb]
      exact (ih hl hc).mono fun a b h ↦ h.cons t
    | false =>
      have hall := trims_all (t :: ts) f.text
      rw [inked_cons hb] at hc hall ⊢
      rw [callFollows] at hc
      rw [tableName, tableName, hb]
      simp only [Bool.false_eq_true, if_false]
      split
      · rename_i hp
        rw [if_pos hp] at hc
        refine (ih hl ?_).mono fun a b h ↦ h.cons t
        rw [Fragment.pushToken, List.getLast?_append, List.getLast?_eq_some_getLast ht, Option.some_or]
        rwa [List.getLast?_eq_some_getLast ht] at hc
      · rename_i hp
        rw [if_neg hp] at hc
        rw [hc]
        simp only [Bool.false_and, Bool.false_eq_true, if_false]
        exact .ok hall

/-- The source without the white space in a subquery. -/
def Start.ink : Start → Start
  | .subquery b => .subquery (inked b)
  | s => s

/-- What a join phrase is followed by on one side, and its ink on the other. -/
def TrimsStart (ts : List Token) (p q : Start × List Token) : Prop :=
  q.1 = p.1.ink ∧ q.2 = inked p.2 ∧ p.2 <:+ ts ∧ ∀ b, p.1 = .subquery b → b <:+: ts

theorem readSource_inked (ht : t.kind = .join) (hl : ∀ t ∈ ts, t.text ≠ [])
    (hc : callsTable (t :: inked ts) = false) :
    Alike (TrimsStart ts) (readSource t [] ts) (readSource t [] (inked ts)) := by
  rw [readSource, readSource]
  split
  · refine Alike.map (R := Trims ts) ?_ fun a b h ↦ ⟨by rw [h.1]; rfl, h.2.1, h.2.2, fun c hc ↦ by cases hc⟩
    exact (arrays_inked {} ts).bind fun a b h ↦ someItems_inked h
  · rename_i ha
    refine (expectToken_inked _ ts).bind fun p q h ↦ ?_
    obtain ⟨⟨h₁, h₂, h₃⟩, hi⟩ := h
    rw [h₁, h₂]
    split
    · exact (group_inked p.2).map fun a b h ↦
        ⟨congrArg Start.subquery h.1, h.2.1, h.2.2.2.trans h₃,
          fun c hc ↦ Start.subquery.inj hc ▸ h.2.2.1.trans h₃.isInfix⟩
    · split
      · rename_i hk
        rw [hi, callsTable, Bool.or_eq_false_iff] at hc
        have hc := hc.1
        simp only [ht, ha, Bool.not_false, decide_true, Bool.true_and, hk] at hc
        refine Alike.map (R := Trims p.2) (tableName_inked (fun t h ↦ hl t (h₃.subset h)) ?_) fun a b h ↦
          ⟨by rw [h.1]; rfl, h.2.1, h.2.2.trans h₃, fun c hc ↦ by cases hc⟩
        exact hc
      · exact .error rfl

theorem readTail_inked (j : Join Query)
    (hu : ∀ t ∈ ts, t.kind = .joinConstraint → t.keyword ≠ "using") :
    Alike (Trims ts) (readTail j [] ts) (readTail j [] (inked ts)) := by
  refine (aliasWords_inked ts).bind fun p q ⟨⟨h₁, h₂, h₃⟩, h₄⟩ ↦ ?_
  rw [h₁, h₂]
  dsimp only
  split
  · exact .ok ⟨rfl, rfl, h₃⟩
  · rename_i t ht
    obtain ⟨hm, hk⟩ := h₄ t ht
    rw [if_neg (hu t hm hk), if_neg (hu t hm hk)]
    refine Alike.map (R := Trims p.2) ?_ fun a b h ↦ ⟨by rw [h.1], h.2.1, h.2.2.trans h₃⟩
    exact (conditions_inked {} p.2).bind fun a b h ↦ someItems_inked h

end Join

namespace Fragment

theorem trimEnd_append {u : Text} (h : ∃ c ∈ u, Text.isSpace c = false) (s : Text) :
    Text.trimEnd (s ++ u) = s ++ Text.trimEnd u := by
  obtain ⟨c, hm, hc⟩ := h
  have hd : (u.reverse.dropWhile Text.isSpace) ≠ [] := by
    intro e
    have ha := List.takeWhile_append_dropWhile (p := Text.isSpace) (l := u.reverse)
    rw [e, List.append_nil] at ha
    have := Text.mem_takeWhile (ha.symm ▸ List.mem_reverse.2 hm : c ∈ u.reverse.takeWhile Text.isSpace)
    rw [hc] at this
    cases this
  rw [Text.trimEnd, Text.trimEnd, List.reverse_append, List.dropWhile_append, if_neg (by simpa using hd),
    List.reverse_append, List.reverse_reverse]

theorem trimEnd_append_spaces {g : Text} (h : ∀ c ∈ g, Text.isSpace c = true) (s : Text) :
    Text.trimEnd (s ++ g) = Text.trimEnd s := by
  rw [Text.trimEnd, List.reverse_append, List.dropWhile_append_of_pos fun c hc ↦ h c (List.mem_reverse.1 hc),
    Text.trimEnd]

theorem trimEnd_trimEnd (s : Text) : Text.trimEnd (Text.trimEnd s) = Text.trimEnd s := by
  have h : ∀ c ∈ Text.spaceEnd s, Text.isSpace c = true :=
    fun c hc ↦ Text.mem_takeWhile (List.mem_reverse.1 hc)
  rw [← trimEnd_append_spaces h, Text.trimEnd_append_spaceEnd]

theorem mem_trimEnd {u : Text} {c : Char} (hm : c ∈ u) (hc : Text.isSpace c = false) : c ∈ Text.trimEnd u := by
  rw [← Text.trimEnd_append_spaceEnd u] at hm
  rcases List.mem_append.1 hm with hm | hm
  · exact hm
  · have := Text.mem_takeWhile (List.mem_reverse.1 hm)
    rw [hc] at this
    cases this

theorem trailingWord_trim (s : Text) : trailingWord (Text.trim s) = trailingWord (Text.trimEnd s) := by
  have e : (Text.trimEnd s).takeWhile Text.isSpace ++ Text.trim s = Text.trimEnd s :=
    List.takeWhile_append_dropWhile
  have h : trailingWord ((Text.trimEnd s).takeWhile Text.isSpace ++ Text.trim s) = trailingWord (Text.trim s) :=
    trailingWord_append (.inr fun c hc ↦ isWordChar_of_isSpace (Text.mem_takeWhile (List.mem_of_getLast? hc)))
  rw [← h, e]

/-- The word at the end of an expression is that of its last token. -/
theorem trailingWord_after {s u : Text} (h : (∃ c ∈ u, Text.isSpace c = false ∧ isWordChar c = false) ∨
    (∃ c ∈ u, Text.isSpace c = false) ∧ ∀ c ∈ s.getLast?, isWordChar c = false) :
    trailingWord (Text.trim (s ++ u)) = trailingWord (Text.trim u) := by
  have hu : ∃ c ∈ u, Text.isSpace c = false := by
    rcases h with ⟨c, hm, hc, -⟩ | ⟨h, -⟩
    · exact ⟨c, hm, hc⟩
    · exact h
  rw [trailingWord_trim, trailingWord_trim, trimEnd_append hu]
  refine trailingWord_append (h.imp (fun ⟨c, hm, hc, hw⟩ ↦ ⟨c, mem_trimEnd hm hc, hw⟩) And.right)

variable {f : Fragment}

theorem ink_of_lexical (ht : Lexical t) (hb : t.kind ≠ .blank) : ∃ c ∈ t.text, Text.isSpace c = false := by
  obtain ⟨c, u, e⟩ := List.exists_cons_of_ne_nil ht.text_ne_nil
  refine ⟨c, by simp [e], isSpace_of_startsKind (ht.startsKind c ?_) hb⟩
  rw [e]
  rfl

theorem endsInTableFunction_pushToken (ht : Lexical t) (hb : t.kind ≠ .blank) (hc : t.kind ≠ .comment) :
    (f.pushToken t).endsInTableFunction = tableFunctions.contains (trailingWord (Text.trim t.text)) := by
  have hs := ht.solid hb hc
  have he : Text.trimEnd (f.pushToken t).text = (f.pushToken t).text := by
    rw [Fragment.pushToken, trimEnd_append (ink_of_lexical ht hb), hs.trimEnd]
  rw [endsInTableFunction, trailingWord_trim, he, trailingWord_pushToken f ht, hs.trim]

theorem endsInTableFunction_pushComment (ht : Lexical t) (hb : t.kind ≠ .blank) :
    (f.pushComment t).endsInTableFunction = tableFunctions.contains (trailingWord (Text.trim t.text)) := by
  have hink := ink_of_lexical ht hb
  have htrim : trailingWord (Text.trim (t.text ++ ['\n'])) = trailingWord (Text.trim t.text) := by
    rw [trailingWord_trim, trailingWord_trim, trimEnd_append_spaces (by decide)]
  rw [endsInTableFunction, Fragment.pushComment, ← htrim, List.append_assoc]
  refine congrArg tableFunctions.contains (trailingWord_after (.inr ⟨?_, fun c hc ↦ ?_⟩))
  · obtain ⟨c, hm, hc⟩ := hink
    exact ⟨c, List.mem_append_left _ hm, hc⟩
  · split at hc
    · rw [List.getLast?_append] at hc
      obtain rfl := Option.some.inj hc
      rfl
    · rename_i hs
      rw [List.append_nil] at hc
      rw [Option.mem_def.1 hc, Option.any_some] at hs
      exact isWordChar_of_isSpace (by simpa using hs)

theorem endsInTableFunction_pushText (s : Text) : (f.pushText (s ++ [')'])).endsInTableFunction = false := by
  rw [endsInTableFunction, Fragment.pushText, ← List.append_assoc, trailingWord_after]
  · rfl
  · exact .inl ⟨')', List.mem_singleton_self _, rfl, rfl⟩

end Fragment

/-- Tokens that mean the same whatever white space is between them: none ends in the name of a table
function, there is no `USING`, and no parenthesis follows the table of a join. -/
structure LayoutFree (ts : List Token) : Prop where
  words : ∀ t ∈ ts, Fragment.tableFunctions.contains (Fragment.trailingWord (Text.trim t.text)) = false
  columns : ∀ t ∈ ts, t.kind = .joinConstraint → t.keyword ≠ "using"
  calls : callsTable ts = false

theorem LayoutFree.part {a b : List Token} (h : LayoutFree b) (hab : a <:+: b) : LayoutFree a :=
  ⟨fun t ht ↦ h.words t (hab.subset ht), fun t ht ↦ h.columns t (hab.subset ht), callsTable_part h.calls hab⟩

theorem inked_part {a b : List Token} (h : a <:+: b) : inked a <:+: inked b := by
  obtain ⟨x, y, rfl⟩ := h
  exact ⟨inked x, inked y, by simp⟩

theorem isBlank_of_isUnionAll {t : Token} (h : isUnionAll t = true) : t.isBlank = false := by
  simp only [isUnionAll, isClause, Bool.and_eq_true, decide_eq_true_eq] at h
  simp [Token.isBlank, h.1]

theorem endsInTableFunction_membershipText (f : Fragment) (q : Query) :
    (f.pushText (membershipText q)).endsInTableFunction = false := by
  rw [membershipText]
  split
  · exact Fragment.endsInTableFunction_pushText _
  · have := Fragment.endsInTableFunction_pushText (f := f) (" (\n" ++ q.printAt Query.tab ++ "\n")
    rwa [List.append_assoc] at this

/-- A draft after which the tokens `ts` are left on one side, and the same one with their ink on the other. -/
def TrimsDraft (ts : List Token) (p q : Draft × List Token) : Prop :=
  Trims ts p q ∧ p.1.fragment.endsInTableFunction = false

/-- Reading a token does the same whatever white space follows it. -/
theorem step_inked {d : Draft} (hd : d.fragment.endsInTableFunction = false) (hl : ∀ u ∈ t :: ts, Lexical u)
    (hb : t.isBlank = false) (hf : LayoutFree (t :: inked ts))
    (ih : ∀ b, b <:+: ts → Alike Eq (parseTokens [] b {}) (parseTokens [] (inked b) {})) :
    Alike (TrimsDraft ts) (d.step [] t ts) (d.step [] t (inked ts)) := by
  have hm := d.means_action t
  obtain ⟨ht, hlt⟩ := List.forall_mem_cons.1 hl
  have hk : t.kind ≠ .blank := by simpa [Token.isBlank] using hb
  have hw := hf.words t List.mem_cons_self
  have hflush : d.flush.fragment.endsInTableFunction = false := by
    rw [Draft.flush_fragment]
    rfl
  have hpush : t.kind ≠ .comment → ∀ e : Draft, (e.pushToken t).fragment.endsInTableFunction = false := fun hc e ↦
    (Fragment.endsInTableFunction_pushToken ht hk hc).trans hw
  have keep : ∀ e : Draft, e.fragment.endsInTableFunction = false →
      Alike (TrimsDraft ts) (.ok (e, ts)) (.ok (e, inked ts)) := fun e he ↦ .ok ⟨trims_all ts e, he⟩
  rw [Draft.step, Draft.step]
  cases ha : d.action t with
  | skip =>
    rw [ha] at hm
    exact absurd hm hk
  | pushToken =>
    rw [ha] at hm
    exact keep _ (hpush hm.2.1 d)
  | pushComment => exact keep _ ((Fragment.endsInTableFunction_pushComment ht hk).trans hw)
  | openClause c => exact keep _ hflush
  | comma =>
    refine keep _ ?_
    rw [Draft.comma]
    split
    · rw [Draft.push_fragment]
      exact hflush
    · exact hflush
  | conjunction =>
    rw [ha] at hm
    exact keep _ (hpush (by rw [hm]; decide) _)
  | readUnions =>
    rw [splitOutside_inked fun _ ↦ isBlank_of_isUnionAll, List.mapM_map]
    refine Alike.map (R := Eq) ?_ fun a b h ↦ ⟨⟨by rw [h], rfl, List.nil_suffix⟩, hflush⟩
    exact Alike.mapM fun r hr ↦ ih r (isInfix_of_mem_splitOutside hr)
  | readCall =>
    refine (callGroup_inked t.text ts).bind fun p q h ↦ ?_
    obtain ⟨h₁, h₂, h₃, h₄⟩ := h
    rw [h₁, h₂]
    exact (ih p.1 h₃).map fun a b h ↦ ⟨⟨by rw [h], rfl, h₄⟩, hflush⟩
  | sourceParen =>
    rw [ha] at hm
    simp only [hd, Bool.not_false, Bool.true_and, Bool.false_eq_true, if_false]
    split
    · exact keep _ (hpush (by simp [(isBlank_of_isOpenParen hm.1).1]) d)
    · refine (group_inked ts).bind fun p q h ↦ ?_
      obtain ⟨h₁, h₂, h₃, h₄⟩ := h
      rw [h₁, h₂]
      exact (ih p.1 h₃).map fun a b h ↦ ⟨⟨by rw [h], rfl, h₄⟩, hd⟩
  | membership =>
    rw [ha] at hm
    have hc : t.kind ≠ .comment := by
      rw [hm]
      decide
    have hsuf := List.dropWhile_suffix isBlank (l := ts)
    simp only [dropWhile_inked]
    cases h : ts.dropWhile isBlank with
    | nil => exact .ok ⟨⟨rfl, rfl, List.nil_suffix⟩, hpush hc d⟩
    | cons o us =>
      have hob : o.isBlank = false := by
        have := List.head?_dropWhile_not isBlank ts
        rw [h] at this
        simpa using this
      rw [h] at hsuf
      rw [inked_cons hob]
      simp only
      split
      · refine (group_inked us).bind fun p q h ↦ ?_
        obtain ⟨h₁, h₂, h₃, h₄⟩ := h
        have hus : us <:+ ts := (List.suffix_cons _ _).trans hsuf
        rw [h₁, h₂]
        exact (ih p.1 (h₃.trans hus.isInfix)).map fun a b h ↦
          ⟨⟨by rw [h], rfl, h₄.trans hus⟩, endsInTableFunction_membershipText _ _⟩
      · refine .ok ⟨⟨rfl, (inked_cons hob us).symm, hsuf⟩, hpush hc d⟩
  | readJoin =>
    rw [ha] at hm
    refine (Join.readSource_inked hm.1 (fun u hu ↦ (hlt u hu).text_ne_nil) hf.calls).bind fun p q h ↦ ?_
    obtain ⟨h₁, h₂, h₃, h₄⟩ := h
    have hcol : ∀ u ∈ p.2, u.kind = .joinConstraint → u.keyword ≠ "using" := by
      intro u hu huk
      refine hf.columns u (List.mem_cons_of_mem _ (List.mem_filter.2 ⟨h₃.subset hu, ?_⟩)) huk
      simp [Token.isBlank, huk]
    have hadd : ∀ j, (d.flush.addJoin j).fragment.endsInTableFunction = false := fun _ ↦ hflush
    obtain ⟨src, us⟩ := p
    rw [h₁, h₂]
    cases src with
    | arrays items => exact .ok ⟨⟨rfl, rfl, h₃⟩, hadd _⟩
    | table name =>
      exact (Join.readTail_inked _ hcol).map fun a b h ↦ ⟨⟨by rw [h.1], h.2.1, h.2.2.trans h₃⟩, hadd _⟩
    | subquery b =>
      refine (ih b (h₄ b rfl)).bind fun q q' hq ↦ ?_
      rw [← hq]
      exact (Join.readTail_inked _ hcol).map fun a b h ↦ ⟨⟨by rw [h.1], h.2.1, h.2.2.trans h₃⟩, hadd _⟩

/-- Reading tokens does the same whatever white space is between them. -/
theorem parseTokens_inked {d : Draft} (hd : d.fragment.endsInTableFunction = false) (hl : ∀ t ∈ ts, Lexical t)
    (hf : LayoutFree (inked ts)) : Alike Eq (parseTokens [] ts d) (parseTokens [] (inked ts) d) := by
  induction hn : ts.length using Nat.strongRecOn generalizing ts d with
  | ind n ih =>
    cases ts with
    | nil =>
      rw [inked_nil, parseTokens_nil]
      exact .ok rfl
    | cons t ts =>
      obtain ⟨-, hlt⟩ := List.forall_mem_cons.1 hl
      have hlen : ts.length < n := by
        rw [← hn]
        exact Nat.lt_succ_self _
      cases hb : t.isBlank with
      | true =>
        rw [inked_cons_blank hb] at hf ⊢
        rw [parse_blank hb]
        exact ih _ hlen hd hlt hf rfl
      | false =>
        rw [inked_cons hb] at hf ⊢
        have hft : LayoutFree (inked ts) := hf.part (List.suffix_cons t _).isInfix
        rw [parseTokens_cons, parseTokens_cons]
        refine (step_inked hd hl hb hf fun b hi ↦ ?_).bind fun p q ⟨⟨h₁, h₂, h₃⟩, h₄⟩ ↦ ?_
        · exact ih _ (Nat.lt_of_le_of_lt hi.length_le hlen) rfl (fun u hu ↦ hlt u (hi.subset hu))
            (hft.part (inked_part hi)) rfl
        · rw [h₁, h₂]
          exact ih _ (Nat.lt_of_le_of_lt h₃.length_le hlen) h₄ (fun u hu ↦ hlt u (h₃.subset hu))
            (hft.part (inked_part h₃.isInfix)) rfl

/-- The tokens of a text other than white space, without their places. -/
def lexemes (s : Text) : Except Error (List Token) := (tokenize false s).map fun ts ↦ ts.map Located.toToken

theorem lexemes_eq_ok {s : Text} (h : lexemes s = .ok us) : ∃ ts, textOf ts = s ∧ Lexed ts ∧ us = inked ts := by
  rw [lexemes, tokenize] at h
  cases hs : tokens? s with
  | error e =>
    rw [hs] at h
    cases h
  | ok ts =>
    rw [hs] at h
    obtain ⟨ht, hl⟩ := tokens?_eq_ok_iff.1 hs
    exact ⟨ts, ht, hl, (Except.ok.inj h).symm.trans (map_kept false 0 ts)⟩

theorem lexemes_textOf (h : Lexed ts) : lexemes (textOf ts) = .ok (inked ts) := by
  rw [lexemes, h.tokenize]
  exact congrArg Except.ok (map_kept false 0 ts)

/-- Two texts with the same tokens, white space aside, are read as the same query, or fail alike. -/
theorem parse_layout {s s' : Text} (h : lexemes s = .ok ts) (h' : lexemes s' = .ok ts) (hf : LayoutFree ts) :
    (parse s).mapError Error.kind = (parse s').mapError Error.kind := by
  have hparse : ∀ {s}, lexemes s = .ok ts →
      (parse s).mapError Error.kind = (parseTokens [] ts {}).mapError Error.kind := by
    intro s h
    obtain ⟨us, rfl, hl, rfl⟩ := lexemes_eq_ok h
    rw [parse_textOf hl]
    exact (parseTokens_inked rfl hl.lexical hf).mapError_eq
  rw [hparse h, hparse h']

/-- The tokens of a query whose subquery follows a comment, with the white space `g` in the subquery. -/
def commentedSource (g : Text) : List Token :=
  [⟨.clause, "SELECT"⟩, ⟨.blank, " "⟩, ⟨.identifier, "a"⟩, ⟨.blank, " "⟩, ⟨.clause, "FROM"⟩, ⟨.blank, " "⟩,
    ⟨.comment, "-- file "⟩, ⟨.blank, "\n"⟩, ⟨.opening, "("⟩, ⟨.clause, "SELECT"⟩, ⟨.blank, g⟩, ⟨.number, "1"⟩,
    ⟨.closing, ")"⟩]

/-- A comment is read as the name of a table function, and what parentheses after it enclose is kept as it is. -/
theorem parse_commentedSource (g : Text) : parseTokens [] (commentedSource g) {} =
    .ok (Draft.flush ⟨{ slots := { select := some ["a"] }, source := some (.table []) }, .source,
      ⟨"-- file \n" ++ ('(' :: ("SELECT" ++ (g ++ "1")) ++ ")"), 0, true, false⟩⟩).query := by
  refine (parseTokens_step rfl).trans ?_
  refine (parseTokens_step rfl).trans ?_
  refine (parseTokens_step rfl).trans ?_
  refine (parseTokens_step rfl).trans ?_
  refine (parseTokens_step rfl).trans ?_
  refine (parseTokens_step rfl).trans ?_
  refine (parseTokens_step rfl).trans ?_
  refine (parseTokens_step rfl).trans ?_
  refine (parseTokens_step rfl).trans ?_
  exact parseTokens_nil.trans rfl

/-- A comment with a space at its end does not end in a word, but layout matters after it as if it did. -/
theorem parse_layout_of_comment :
    (∃ ts, lexemes "SELECT a FROM -- file \n(SELECT  1)" = .ok ts ∧
      lexemes "SELECT a FROM -- file \n(SELECT 1)" = .ok ts ∧
      (∀ t ∈ ts, ∀ w ∈ Fragment.tableFunctions, ¬ w <:+ Text.lower t.text) ∧
      (∀ t ∈ ts, t.kind = .joinConstraint → t.keyword ≠ "using") ∧ callsTable ts = false) ∧
    (parse "SELECT a FROM -- file \n(SELECT  1)").mapError Error.kind ≠
      (parse "SELECT a FROM -- file \n(SELECT 1)").mapError Error.kind := by
  have hl : Lexed (commentedSource " ") := by decide +kernel
  have hl' : Lexed (commentedSource "  ") := by decide +kernel
  refine ⟨⟨_, lexemes_textOf hl', lexemes_textOf hl, by decide +kernel, by decide, by decide⟩, fun h ↦ ?_⟩
  have hp : parse "SELECT a FROM -- file \n(SELECT  1)" = _ := (parse_textOf hl').trans (parse_commentedSource _)
  have hp' : parse "SELECT a FROM -- file \n(SELECT 1)" = _ := (parse_textOf hl).trans (parse_commentedSource _)
  rw [hp, hp'] at h
  have := congrArg (fun q : Query ↦ q.items .source) (Except.ok.inj h)
  exact absurd this (by decide)

theorem parse_layout_of_spaces :
    ∃ ts, lexemes "SELECT a,b FROM t" = .ok ts ∧ lexemes "SELECT  a , b\nFROM t" = .ok ts ∧ LayoutFree ts ∧
      (parse "SELECT a,b FROM t").mapError Error.kind = (parse "SELECT  a , b\nFROM t").mapError Error.kind := by
  have hl : Lexed [⟨.clause, "SELECT"⟩, ⟨.blank, " "⟩, ⟨.identifier, "a"⟩, ⟨.punctuation, ","⟩, ⟨.identifier, "b"⟩,
      ⟨.blank, " "⟩, ⟨.clause, "FROM"⟩, ⟨.blank, " "⟩, ⟨.identifier, "t"⟩] := by decide +kernel
  have hl' : Lexed [⟨.clause, "SELECT"⟩, ⟨.blank, "  "⟩, ⟨.identifier, "a"⟩, ⟨.blank, " "⟩, ⟨.punctuation, ","⟩,
      ⟨.blank, " "⟩, ⟨.identifier, "b"⟩, ⟨.blank, "\n"⟩, ⟨.clause, "FROM"⟩, ⟨.blank, " "⟩, ⟨.identifier, "t"⟩] := by
    decide +kernel
  have hf : LayoutFree [⟨.clause, "SELECT"⟩, ⟨.identifier, "a"⟩, ⟨.punctuation, ","⟩, ⟨.identifier, "b"⟩,
      ⟨.clause, "FROM"⟩, ⟨.identifier, "t"⟩] := ⟨by decide +kernel, by decide, by decide⟩
  exact ⟨_, lexemes_textOf hl, lexemes_textOf hl', hf, parse_layout (lexemes_textOf hl) (lexemes_textOf hl') hf⟩

end QueryTemplate
