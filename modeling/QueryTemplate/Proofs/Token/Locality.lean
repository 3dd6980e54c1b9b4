import QueryTemplate.Proofs.Token.Cut
namespace QueryTemplate

open Token Grammar

/-- Two starts of one text that are equally long in UTF-8 are one. -/
theorem Text.eq_of_bytes_eq {x u z v : Text} (h : x ++ u = z ++ v) (hb : bytes x = bytes z) : x = z := by
  induction x generalizing z with
  | nil =>
    cases z with
    | nil => rfl
    | cons d z =>
      have := Char.utf8Size_pos d
      rw [bytes_cons, bytes_nil] at hb
      omega
  | cons c x ih =>
    cases z with
    | nil =>
      have := Char.utf8Size_pos c
      rw [bytes_cons, bytes_nil] at hb
      omega
    | cons d z =>
      obtain ⟨rfl, he⟩ := List.cons.inj h
      rw [bytes_cons, bytes_cons] at hb
      rw [ih he (by omega)]

/-- The tokens that a reader sees, at their offsets. -/
def kept (keepBlank : Bool) (n : Nat) (ts : List Token) : List Located :=
  (place n ts).filter fun t ↦ keepBlank || !t.isBlank

@[simp] theorem kept_nil (k : Bool) (n : Nat) : kept k n [] = [] := rfl

theorem kept_cons_skip {k : Bool} {t : Token} (h : (k || !t.isBlank) = false) (n : Nat) (ts : List Token) :
    kept k n (t :: ts) = kept k (n + Text.bytes t.text) ts := by
  rw [kept, place, List.filter_cons_of_neg (by simp [h])]
  rfl

theorem kept_cons {k : Bool} {t : Token} (h : (k || !t.isBlank) = true) (n : Nat) (ts : List Token) :
    kept k n (t :: ts) = ⟨t, n⟩ :: kept k (n + Text.bytes t.text) ts := by
  rw [kept, place, List.filter_cons_of_pos (by simpa using h)]
  rfl

theorem map_kept (k : Bool) (n : Nat) (ts : List Token) :
    (kept k n ts).map Located.toToken = ts.filter fun t ↦ k || !t.isBlank := by
  induction ts generalizing n with
  | nil => rfl
  | cons t ts ih =>
    cases h : k || !t.isBlank with
    | true => rw [kept_cons h, List.map_cons, ih, List.filter_cons_of_pos (by simpa using h)]
    | false => rw [kept_cons_skip h, ih, List.filter_cons_of_neg (by simp [h])]

theorem Lexed.tokenize {ts : List Token} (h : Lexed ts) (k : Bool) :
    tokenize k (textOf ts) = .ok (kept k 0 ts) := by
  rw [QueryTemplate.tokenize, tokens?_eq_ok_iff.2 ⟨rfl, h⟩]
  rfl

namespace Cursor

/-- Read from the place `c` on, the tokens `before` come first and then `t`. -/
inductive Yields : Cursor → List Located → Located → Prop
  | here {c c' : Cursor} {t : Located} : c.next = (.ok (some t), c') → Yields c [] t
  | there {c c' : Cursor} {u t : Located} {before : List Located} :
      c.next = (.ok (some u), c') → Yields c' before t → Yields c (u :: before) t

variable {c : Cursor} {t u : Token} {r : Text}

theorem next_of_munch_none (h : munch c.rest = none) : c.next = (atEnd c.rest none, c) := by
  rw [next]
  split
  · rfl
  · simp_all

theorem next_skip (h : munch c.rest = some (u, r)) (hu : (c.keepBlank || !u.isBlank) = false) :
    c.next = next { c with rest := r } := by
  rw [next]
  split
  · simp_all
  · rename_i e
    obtain ⟨rfl, rfl⟩ := Prod.mk.inj (Option.some.inj (h.symm.trans e))
    rw [if_pos (by simpa [and_comm] using hu)]

theorem next_take (h : munch c.rest = some (u, r)) (hu : (c.keepBlank || !u.isBlank) = true) :
    c.next = (.ok (some ⟨u, c.position⟩), { c with rest := r }) := by
  rw [next]
  split
  · simp_all
  · rename_i e
    obtain ⟨rfl, rfl⟩ := Prod.mk.inj (Option.some.inj (h.symm.trans e))
    rw [if_neg]
    cases hk : c.keepBlank <;> simp_all

theorem yields_congr {c' : Cursor} (h : c.next = c'.next) {before : List Located} {t : Located} :
    c.Yields before t ↔ c'.Yields before t := by
  constructor
  · intro hy
    cases hy with
    | here hn => exact .here (h ▸ hn)
    | there hn hy => exact .there (h ▸ hn) hy
  · intro hy
    cases hy with
    | here hn => exact .here (h ▸ hn)
    | there hn hy => exact .there (h ▸ hn) hy

theorem yields_take {c' : Cursor} {u t : Located} {before : List Located} (h : c.next = (.ok (some u), c')) :
    c.Yields before t ↔ before = [] ∧ t = u ∨ ∃ ts, before = u :: ts ∧ c'.Yields ts t := by
  constructor
  · intro hy
    cases hy with
    | here hn =>
      rw [h] at hn
      cases hn
      exact .inl ⟨rfl, rfl⟩
    | there hn hy =>
      rw [h] at hn
      cases hn
      exact .inr ⟨_, rfl, hy⟩
  · rintro (⟨rfl, rfl⟩ | ⟨ts, rfl, hy⟩)
    · exact .here h
    · exact .there h hy

/-- What a place yields is what is left to read of the text, at its offsets. -/
theorem yields_iff (hc : Text.bytes c.rest ≤ Text.bytes c.input) {before : List Located} {t : Located} :
    c.Yields before t ↔ ∃ a b, (scan c.rest).tokens = a ++ t.toToken :: b ∧
      (c.keepBlank || !t.isBlank) = true ∧ before = kept c.keepBlank c.position a ∧
      t.offset = c.position + Text.bytes (textOf a) := by
  induction hn : c.rest.length using Nat.strongRecOn generalizing c before with
  | ind n ih =>
    cases hm : munch c.rest with
    | none =>
      have hy : ¬ c.Yields before t := by
        intro hy
        have hnext := next_of_munch_none hm
        cases hy with
        | here h | there h _ =>
          rw [hnext, atEnd] at h
          split at h <;> cases h
      simp [scan_of_munch_none hm, hy]
    | some p =>
      obtain ⟨u, r⟩ := p
      have hr := (munch_eq_some hm).2
      have hpos : position { c with rest := r } = c.position + Text.bytes u.text := by
        simp only [position, hr, Text.bytes_append] at hc ⊢
        omega
      have hle : Text.bytes r ≤ Text.bytes c.input := by
        rw [hr, Text.bytes_append] at hc
        omega
      have ih : ∀ {before}, Yields { c with rest := r } before t ↔ _ := fun {before} ↦
        ih r.length (hn ▸ munch_shorter hm) (c := { c with rest := r }) hle rfl
      have hs : (scan c.rest).tokens = u :: (scan r).tokens := by rw [scan_of_munch hm]
      cases hk : c.keepBlank || !u.isBlank with
      | false =>
        rw [yields_congr (next_skip hm hk), ih, hs, hpos]
        constructor
        · rintro ⟨a, b, h₁, h₂, h₃, h₄⟩
          refine ⟨u :: a, b, by rw [h₁]; rfl, h₂, by rw [kept_cons_skip hk, h₃], ?_⟩
          rw [h₄, textOf_cons, Text.bytes_append, Nat.add_assoc]
        · rintro ⟨a, b, h₁, h₂, h₃, h₄⟩
          cases a with
          | nil =>
            obtain ⟨rfl, -⟩ := List.cons.inj h₁
            rw [h₂] at hk
            cases hk
          | cons v a =>
            obtain ⟨rfl, he⟩ := List.cons.inj h₁
            refine ⟨a, b, he, h₂, by rw [h₃, kept_cons_skip hk], ?_⟩
            rw [h₄, textOf_cons, Text.bytes_append, Nat.add_assoc]
      | true =>
        rw [yields_take (next_take hm hk), hs]
        constructor
        · rintro (⟨rfl, rfl⟩ | ⟨ts, rfl, hy⟩)
          · exact ⟨[], (scan r).tokens, rfl, hk, rfl, rfl⟩
          · obtain ⟨a, b, h₁, h₂, h₃, h₄⟩ := ih.1 hy
            refine ⟨u :: a, b, by rw [h₁]; rfl, h₂, by rw [kept_cons hk, h₃, hpos], ?_⟩
            rw [h₄, hpos, textOf_cons, Text.bytes_append, Nat.add_assoc]
        · rintro ⟨a, b, h₁, h₂, h₃, h₄⟩
          cases a with
          | nil =>
            obtain ⟨rfl, -⟩ := List.cons.inj h₁
            obtain ⟨t, n⟩ := t
            exact .inl ⟨h₃, by rw [show n = c.position from h₄]⟩
          | cons v a =>
            obtain ⟨rfl, he⟩ := List.cons.inj h₁
            refine .inr ⟨_, by rw [h₃, kept_cons hk], ih.2 ⟨a, b, he, h₂, by rw [hpos], ?_⟩⟩
            rw [h₄, hpos, textOf_cons, Text.bytes_append, Nat.add_assoc]

theorem yields_start_iff {s : Text} {k : Bool} {before : List Located} {t : Located} :
    (start s k).Yields before t ↔ ∃ a b, (scan s).tokens = a ++ t.toToken :: b ∧
      (k || !t.isBlank) = true ∧ before = kept k 0 a ∧ t.offset = Text.bytes (textOf a) := by
  rw [yields_iff (c := start s k) (Nat.le_refl _)]
  simp [position, start]

end Cursor

/-- Blank tokens do not count for the depth. -/
theorem depthRun_filter {p : Token → Bool} (hp : ∀ t, p t = false → t.isBlank = true) (d : Nat)
    (ts : List Token) : depthRun d (ts.filter p) = depthRun d ts := by
  induction ts generalizing d with
  | nil => rfl
  | cons t ts ih =>
    cases h : p t with
    | true =>
      rw [List.filter_cons_of_pos h]
      simp only [depthRun, ih]
    | false =>
      have hb := hp t h
      simp only [Token.isBlank, decide_eq_true_eq] at hb
      rw [List.filter_cons_of_neg (by simp [h]), ih]
      simp [depthRun, isOpenParen, isCloseParen, hb]

/-- The depth is how many more parentheses open than close. -/
theorem countP_of_depthRun {d e : Nat} {ts : List Token} (h : depthRun d ts = some e) :
    ts.countP isCloseParen + e = d + ts.countP isOpenParen := by
  induction ts generalizing d with
  | nil =>
    obtain rfl := Option.some.inj h
    simp
  | cons t ts ih =>
    rw [List.countP_cons, List.countP_cons]
    simp only [depthRun] at h
    split at h
    · rename_i ho
      have := ih h
      simp only [ho, isCloseParen_of_isOpenParen ho, if_true, Bool.false_eq_true, if_false]
      omega
    · rename_i ho
      split at h
      · rename_i hc
        cases d with
        | zero => cases h
        | succ d =>
          have := ih h
          simp only [hc, if_true, if_neg ho]
          omega
      · rename_i hc
        have := ih h
        simp only [if_neg ho, if_neg hc]
        omega

theorem countP_le_of_depthRun {d e : Nat} {ts p : List Token} (h : depthRun d ts = some e) (hp : p <+: ts) :
    p.countP isCloseParen ≤ d + p.countP isOpenParen := by
  obtain ⟨q, rfl⟩ := hp
  rw [depthRun_append] at h
  obtain ⟨k, hk, -⟩ := Option.bind_eq_some_iff.1 h
  have := countP_of_depthRun hk
  omega

/-- No part of the tokens from their start closes more parentheses than it opens, and all of them
close as many as they open. -/
def Nested (ts : List Located) : Prop :=
  (∀ p, p <+: ts → p.countP (·.isCloseParen) ≤ p.countP (·.isOpenParen)) ∧
    ts.countP (·.isCloseParen) = ts.countP (·.isOpenParen)

theorem nested_kept {ts : List Token} (h : Balanced ts) (k : Bool) (n : Nat) : Nested (kept k n ts) := by
  have hb : depthRun 0 ((kept k n ts).map Located.toToken) = some 0 := by
    rw [map_kept, depthRun_filter fun t ht ↦ ?_]
    · exact h
    · simpa using (Bool.or_eq_false_iff.1 ht).2
  have hcount : ∀ (q : Token → Bool) (ts : List Located),
      ts.countP (fun t ↦ q t.toToken) = (ts.map Located.toToken).countP q := fun q ts ↦ by
    rw [List.countP_map]
    rfl
  constructor
  · intro p hp
    have := countP_le_of_depthRun hb (hp.map Located.toToken)
    rw [hcount, hcount]
    omega
  · have := countP_of_depthRun hb
    rw [hcount, hcount]
    omega

theorem betweenParens_eq_ok {s body : Text} (h : betweenParens s = .ok body) :
    ∃ b e a, (scan s).tokens = b ++ e :: a ∧ e.isCloseParen = true ∧ Balanced b ∧ body = textOf b := by
  simp only [betweenParens, group] at h
  split at h
  · rename_i p hp
    obtain ⟨hb, e, he, hs⟩ := depthRun_of_closing? hp
    exact ⟨p.1, e, p.2, hs, he, hb, (Except.ok.inj h).symm⟩
  · cases h

/-- Reading a text up to a place where queries are cut does not depend on what follows, and what
parentheses enclose reads by itself as it does between them. -/
theorem tokenize_of_cut :
    (∀ (k : Bool) (x y : Text) (before : List Located) (t : Located),
      (Cursor.start (x ++ t.text ++ y) k).Yields before t → t.offset = Text.bytes x → IsCut t.toToken →
        tokenize k x = .ok before) ∧
    ∀ (k : Bool) (s body : Text), betweenParens s = .ok body → ∃ (before : List Located) (t : Located) (y : Text),
      s = body ++ t.text ++ y ∧ t.isCloseParen = true ∧ t.offset = Text.bytes body ∧
        (Cursor.start s k).Yields before t ∧ tokenize k body = .ok before ∧ Nested before := by
  constructor
  · intro k x y before t hy ho ht
    obtain ⟨a, b, hs, -, rfl, hx⟩ := Cursor.yields_start_iff.1 hy
    have hl := lexed_of_scan hs ht
    have he := (leads_of_scan hs).1
    rw [List.append_assoc] at he
    obtain rfl := Text.eq_of_bytes_eq he (ho.symm.trans hx)
    exact hl.tokenize k
  · intro k s body h
    obtain ⟨b, e, a, hs, he, hb, rfl⟩ := betweenParens_eq_ok h
    obtain ⟨hx, -⟩ := leads_of_scan hs
    refine ⟨kept k 0 b, ⟨e, Text.bytes (textOf b)⟩, textOf a ++ (scan s).rest, ?_, he, rfl, ?_,
      (lexed_of_scan hs (.inl he)).tokenize k, nested_kept hb k 0⟩
    · refine hx.trans ?_
      rw [textOf_cons, List.append_assoc, List.append_assoc]
    · refine Cursor.yields_start_iff.2 ⟨b, a, hs, ?_, rfl, rfl⟩
      simp [isBlank_of_isCloseParen he]

theorem tokenize_of_cut_call :
    (∃ before t, (Cursor.start "f(x), /* y" false).Yields before t ∧ t.text = [','] ∧ before.length = 4 ∧
      tokenize false "f(x)" = .ok before) ∧
    ∃ before t y, ("x), /* y" : Text) = ("x" : Text) ++ t.text ++ y ∧ t.isCloseParen = true ∧
      t.offset = Text.bytes "x" ∧ (Cursor.start "x), /* y" false).Yields before t ∧
      tokenize false "x" = .ok before ∧ Nested before := by
  have hl : Lexed [⟨.identifier, "f"⟩, ⟨.opening, "("⟩, ⟨.identifier, "x"⟩, ⟨.closing, ")"⟩, ⟨.punctuation, ","⟩,
      ⟨.blank, " "⟩, ⟨.operator, "/"⟩, ⟨.operator, "*"⟩, ⟨.blank, " "⟩, ⟨.identifier, "y"⟩] := by decide
  constructor
  · have hy : (Cursor.start "f(x), /* y" false).Yields _ ⟨⟨.punctuation, ","⟩, 4⟩ :=
      Cursor.yields_start_iff.2 ⟨[⟨.identifier, "f"⟩, ⟨.opening, "("⟩, ⟨.identifier, "x"⟩, ⟨.closing, ")"⟩], _,
        congrArg Scan.tokens hl, rfl, rfl, rfl⟩
    exact ⟨_, _, hy, rfl, rfl, tokenize_of_cut.1 false "f(x)" " /* y" _
      ⟨⟨.punctuation, ","⟩, 4⟩ hy rfl (.inr (.inl rfl))⟩
  · have hs : scan "x), /* y" = _ := hl.tail.tail
    refine tokenize_of_cut.2 false "x), /* y" "x" ?_
    rw [betweenParens, hs]
    rfl

end QueryTemplate
