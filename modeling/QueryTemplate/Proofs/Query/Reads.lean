import QueryTemplate.Proofs.Query.Step
namespace QueryTemplate

open Token

/-- Where a token is put into the expression that is read. With `n` the clause holds an item
already. -/
structure Pushes (c : Clause) (n : Bool) (f : Fragment) (t : Token) : Prop where
  kind : t.kind ≠ .blank ∧ t.kind ≠ .comment ∧ t.kind ≠ .membership
  inner : t.kind = .clause ∨ t.kind = .join ∨ t.kind = .aggregation ∨ t.isComma = true →
    f.isBalanced = false
  conjunction : t.kind = .conjunction → c.isPredicate = true → f.isBalanced = false
  paren : t.isOpenParen = true → c = .source → f.isBalanced = true →
    f.endsInTableFunction = false ∧ (f.isEmpty = false ∨ n = true)

/-- What reading tokens that open no clause does to an expression `f` of the clause `c`: the items
that it completes, and the expression that is left. -/
inductive Reads (c : Clause) : Bool → Fragment → List Token → List Text → Fragment → Prop
  | nil {n f} : Reads c n f [] [] f
  | blank {n f t ts xs g} (ht : t.isBlank = true) (h : Reads c n f ts xs g) :
    Reads c n f (t :: ts) xs g
  | token {n f t ts xs g} (ht : Pushes c n f t) (h : Reads c n (f.pushToken t) ts xs g) :
    Reads c n f (t :: ts) xs g
  | comma {n f t ts xs g} (ht : t.isComma = true) (hf : f.isBalanced = true)
    (h : Reads c (n || f.take?.isSome) {} ts xs g) :
    Reads c n f (t :: ts) (f.take?.toList ++ (if c = .slot .condition then [[',']] else []) ++ xs) g
  | conjunction {n f t ts xs g} (ht : t.kind = .conjunction) (hc : c.isPredicate = true)
    (hf : f.isBalanced = true) (h : Reads c n (Fragment.pushToken t {}) ts xs g) :
    Reads c n f (t :: ts) (f.take?.toList ++ xs) g
  | member {n f t gs o b e ts q xs g} (ht : t.kind = .membership) (hg : ∀ u ∈ gs, u.isBlank = true)
    (ho : o.isOpenParen = true) (he : e.isCloseParen = true) (hb : Balanced b)
    (hq : parseTokens [] b {} = .ok q)
    (h : Reads c n ((f.pushToken t).pushText (membershipText q)) ts xs g) :
    Reads c n f (t :: (gs ++ o :: (b ++ e :: ts))) xs g
  | alone {n f t ts xs g} (ht : t.kind = .membership)
    (ho : ∀ o ∈ (ts.dropWhile isBlank).head?, o.isOpenParen = false)
    (h : Reads c n (f.pushToken t) ts xs g) : Reads c n f (t :: ts) xs g
  | raw {n f o b e ts xs g} (hc : c = .source) (hf : f.isBalanced = true)
    (hn : f.endsInTableFunction = true) (ho : o.isOpenParen = true) (he : e.isCloseParen = true)
    (hb : Balanced b) (h : Reads c n (f.pushText ('(' :: textOf b ++ ")")) ts xs g) :
    Reads c n f (o :: (b ++ e :: ts)) xs g

variable {rest : Text} {t : Token} {ts us : List Token} {c : Clause} {n : Bool} {d : Draft}

theorem parse_blank (ht : t.isBlank = true) :
    parseTokens rest (t :: ts) d = parseTokens rest ts d := by
  have ha : d.action t = .skip := by
    have hk : t.kind = .blank := by simpa [Token.isBlank] using ht
    simp [Draft.action, hk]
  rw [parseTokens, ha]

theorem parse_dropWhile : parseTokens rest (ts.dropWhile isBlank) d = parseTokens rest ts d := by
  induction ts with
  | nil => rfl
  | cons t ts ih =>
    cases ht : t.isBlank with
    | true => rw [List.dropWhile_cons_of_pos ht, ih, parse_blank ht]
    | false => rw [List.dropWhile_cons_of_neg (by simp [ht])]

namespace Draft

/-- A draft whose current clause is `c`; with `n` a source holds an item already. -/
structure At (c : Clause) (n : Bool) (d : Draft) : Prop where
  clause : d.clause = c
  source : c = .source → ∃ items, d.query.source = some (.table items) ∧ (n = true → items ≠ [])

/-- The draft with more items in its clause. -/
def addItems (xs : List Text) (d : Draft) : Draft := xs.foldl (fun d x ↦ d.push x) d

theorem push_clause (x : Text) (d : Draft) : (d.push x).clause = d.clause := by
  rw [push]
  split <;> rfl

/-- The draft with another unfinished expression. -/
def hold (f : Fragment) (d : Draft) : Draft := { d with fragment := f }

@[simp] theorem hold_hold (f g : Fragment) (d : Draft) : (d.hold f).hold g = d.hold g := rfl

@[simp] theorem hold_fragment (f : Fragment) (d : Draft) : (d.hold f).fragment = f := rfl

@[simp] theorem hold_query (f : Fragment) (d : Draft) : (d.hold f).query = d.query := rfl

@[simp] theorem hold_clause (f : Fragment) (d : Draft) : (d.hold f).clause = d.clause := rfl

theorem pushToken_eq (t : Token) (d : Draft) : d.pushToken t = d.hold (d.fragment.pushToken t) :=
  rfl

theorem pushText_eq (x : Text) (d : Draft) : d.pushText x = d.hold (d.fragment.pushText x) := rfl

theorem push_hold (x : Text) (d : Draft) (f : Fragment) :
    (d.hold f).push x = (d.push x).hold f := by
  simp only [push, hold]
  split <;> rfl

theorem addItems_hold (xs : List Text) (d : Draft) (f : Fragment) :
    (d.hold f).addItems xs = (d.addItems xs).hold f := by
  induction xs generalizing d with
  | nil => rfl
  | cons x xs ih =>
    rw [addItems, List.foldl_cons, push_hold, ← addItems, ih]
    rfl

theorem addItems_append (xs ys : List Text) (d : Draft) :
    d.addItems (xs ++ ys) = (d.addItems xs).addItems ys := by simp [addItems]

theorem At.push {d : Draft} (h : d.At c n) (x : Text) : (d.push x).At c true := by
  refine ⟨by rw [push_clause, h.clause], fun hc ↦ ?_⟩
  obtain ⟨items, hs, -⟩ := h.source hc
  refine ⟨items ++ [x], ?_, fun _ ↦ by simp⟩
  rw [Draft.push, h.clause, hc]
  simp [Query.push?, Query.modify?, hs]

theorem At.addItems {d : Draft} (h : d.At c n) (xs : List Text) :
    (d.addItems xs).At c (n || xs ≠ []) := by
  induction xs generalizing d n with
  | nil => simpa [Draft.addItems] using h
  | cons x xs ih =>
    have := ih (h.push x)
    simpa [Draft.addItems] using this

theorem At.hold {d : Draft} (h : d.At c n) (f : Fragment) : (d.hold f).At c n :=
  ⟨h.clause, h.source⟩

end Draft

/-- An expression without comments. -/
structure Fragment.Clean (f : Fragment) : Prop where
  code : f.hasCode = false → f.text = []
  line : f.lineComment = false

theorem Fragment.clean_empty : Fragment.Clean {} := ⟨fun _ ↦ rfl, rfl⟩

theorem Fragment.clean_pushToken (f : Fragment) (t : Token) : (f.pushToken t).Clean := ⟨nofun, rfl⟩

theorem Fragment.clean_pushText (f : Fragment) (s : Text) : (f.pushText s).Clean := ⟨nofun, rfl⟩

theorem Draft.flush_eq {d : Draft} (h : d.fragment.Clean) :
    d.flush = (d.addItems d.fragment.take?.toList).hold {} := by
  rw [← addItems_hold, flush]
  cases hx : d.fragment.take? with
  | none => rfl
  | some x =>
    have hc : d.fragment.hasCode = true := by
      cases hc : d.fragment.hasCode with
      | true => rfl
      | false =>
        rw [Fragment.take?, h.code hc] at hx
        cases hx
    simp only [hc, if_true]
    rfl

theorem Pushes.action (hp : Pushes c n d.fragment t) (hd : d.clause = c) : d.action t = .pushToken ∨
    d.action t = .conjunction ∧ d.fragment.isBalanced = false ∨
    d.action t = .sourceParen ∧ t.isOpenParen = true ∧ c = .source ∧
      d.fragment.isBalanced = true := by
  obtain ⟨hb, hc, hm⟩ := hp.kind
  cases hk : t.kind with
  | blank => exact absurd hk hb
  | comment => exact absurd hk hc
  | membership => exact absurd hk hm
  | conjunction =>
    cases hpred : c.isPredicate with
    | false => simp [Draft.action, hk, hd, hpred]
    | true => exact .inr (.inl ⟨by simp [Draft.action, hk, hd, hpred], hp.conjunction hk hpred⟩)
  | clause =>
    left
    simp only [Draft.action, hk, hp.inner (.inl hk)]
    split <;> rfl
  | join => simp [Draft.action, hk, hp.inner (.inr (.inl hk))]
  | aggregation => simp [Draft.action, hk, hp.inner (.inr (.inr (.inl hk)))]
  | punctuation =>
    left
    cases hcom : t.isComma with
    | false => simp [Draft.action, hk, hcom]
    | true => simp [Draft.action, hk, hp.inner (.inr (.inr (.inr hcom)))]
  | opening =>
    by_cases h : d.fragment.isBalanced = true ∧ t.isOpenParen = true ∧ c = .source
    · exact .inr (.inr ⟨by simp [Draft.action, hk, h.1, h.2.1, hd, h.2.2], h.2.1, h.2.2, h.1⟩)
    · left
      simp only [Draft.action, hk, hd]
      rw [if_neg]
      intro e
      simp only [Bool.and_eq_true, decide_eq_true_eq] at e
      exact h ⟨e.1.1, e.1.2, e.2⟩
  | joinConstraint | identifier | string | number | operator | closing | placeholder =>
    left
    simp [Draft.action, hk]

theorem parse_push (hp : Pushes c n d.fragment t) (hd : d.At c n) :
    parseTokens rest (t :: ts) d = parseTokens rest ts (d.pushToken t) := by
  rw [parseTokens]
  rcases hp.action hd.clause with ha | ⟨ha, hf⟩ | ⟨ha, ho, hc, hf⟩
  · rw [ha]
  · rw [ha]
    simp only [Draft.conjunction, hf]
    rfl
  · obtain ⟨hn, hi⟩ := hp.paren ho hc hf
    obtain ⟨items, hq, hne⟩ := hd.source hc
    have he : d.sourceIsEmpty = false := by
      rcases hi with hi | hi
      · simp [Draft.sourceIsEmpty, hi]
      · simp [Draft.sourceIsEmpty, Query.items, hq, hne hi]
    simp only [ha, hn, he]
    rfl

section Enclosed

variable {gs b : List Token} {o e : Token}

theorem group_enclosed (he : e.isCloseParen = true) (hb : Balanced b) :
    group rest (b ++ e :: ts) = .ok (b, ts) := by rw [group, closing?_append hb he]

theorem dropWhile_blanks_open (hg : ∀ u ∈ gs, u.isBlank = true) (ho : o.isOpenParen = true) :
    (gs ++ o :: ts).dropWhile isBlank = o :: ts := by
  have hob : o.isBlank = false := by
    simp only [isOpenParen, Bool.and_eq_true, decide_eq_true_eq] at ho
    simp [Token.isBlank, ho.1]
  rw [List.dropWhile_append_of_pos hg, List.dropWhile_cons_of_neg (by simp [hob])]

/-- What the parentheses after `IN` enclose is read as a query of its own. -/
theorem Draft.step_member (ht : t.kind = .membership) (hg : ∀ u ∈ gs, u.isBlank = true)
    (ho : o.isOpenParen = true) (he : e.isCloseParen = true) (hb : Balanced b) :
    d.step rest t (gs ++ o :: (b ++ e :: ts)) = (parseTokens [] b {}).map fun q ↦
      ((d.pushToken t).pushText (membershipText q), ts) := by
  have ha : d.action t = .membership := by simp [action, ht]
  simp only [step, ha, dropWhile_blanks_open hg ho, if_pos ho, group_enclosed he hb, Except.bind]

/-- So is what the parentheses after a macro enclose. -/
theorem Draft.step_call (ht : t.kind = .aggregation) (hf : d.fragment.isBalanced = true)
    (hg : ∀ u ∈ gs, u.isBlank = true) (ho : o.isOpenParen = true) (he : e.isCloseParen = true)
    (hb : Balanced b) :
    d.step rest t (gs ++ o :: (b ++ e :: ts)) = (parseTokens [] b {}).map fun q ↦
      (d.flush.addCall t.text (.ofQuery q), ts) := by
  have ha : d.action t = .readCall := by simp [action, ht, hf]
  simp only [step, ha, callGroup, expectToken, dropWhile_blanks_open hg ho, Except.bind, if_pos ho,
    group_enclosed he hb]

/-- Just after `FROM`, a parenthesis encloses a subquery. -/
theorem Draft.step_subquery (hc : d.clause = .source) (hf : d.fragment = {})
    (hs : d.query.source = some (.table [])) (ho : o.isOpenParen = true)
    (he : e.isCloseParen = true) (hb : Balanced b) :
    d.step rest o (b ++ e :: ts) = (parseTokens [] b {}).map fun q ↦ (d.setSubquery q, ts) := by
  have hk : o.kind = .opening := by
    simp only [isOpenParen, Bool.and_eq_true, decide_eq_true_eq] at ho
    exact ho.1
  have ha : d.action o = .sourceParen := by simp [action, hk, hc, hf, ho, Fragment.isBalanced]
  have hn : d.fragment.endsInTableFunction = false := by
    rw [hf]
    rfl
  have hempty : d.sourceIsEmpty = true := by
    simp [sourceIsEmpty, Query.items, hs, hf, Fragment.isEmpty, Text.trim, Text.trimStart,
      Text.trimEnd]
  simp only [step, ha, hn, hempty, group_enclosed he hb, Except.bind]
  rfl

theorem parse_member {q : Query} (ht : t.kind = .membership)
    (hg : ∀ u ∈ gs, u.isBlank = true) (ho : o.isOpenParen = true) (he : e.isCloseParen = true)
    (hb : Balanced b) (hq : parseTokens [] b {} = .ok q) :
    parseTokens rest (t :: (gs ++ o :: (b ++ e :: ts))) d =
      parseTokens rest ts ((d.pushToken t).pushText (membershipText q)) :=
  parseTokens_step ((Draft.step_member ht hg ho he hb).trans (by rw [hq]; rfl))

end Enclosed

theorem parse_alone (ht : t.kind = .membership)
    (ho : ∀ o ∈ (ts.dropWhile isBlank).head?, o.isOpenParen = false) :
    parseTokens rest (t :: ts) d = parseTokens rest ts (d.pushToken t) := by
  have ha : d.action t = .membership := by simp [Draft.action, ht]
  rw [parseTokens, ha]
  simp only
  split
  · rename_i h
    rw [← @parse_dropWhile _ ts, h]
  · rename_i o us h
    have : o.isOpenParen = false := ho o (by rw [h]; rfl)
    rw [if_neg (by simp [this]), ← @parse_dropWhile _ ts, h]

theorem parse_raw {b : List Token} {o e : Token} (hd : d.At .source n)
    (hf : d.fragment.isBalanced = true) (hn : d.fragment.endsInTableFunction = true)
    (ho : o.isOpenParen = true) (he : e.isCloseParen = true) (hb : Balanced b) :
    parseTokens rest (o :: (b ++ e :: ts)) d =
      parseTokens rest ts (d.pushText ('(' :: textOf b ++ ")")) := by
  have ha : d.action o = .sourceParen := by
    have hk := ho
    simp only [isOpenParen, Bool.and_eq_true, decide_eq_true_eq] at hk
    simp [Draft.action, hk.1, hf, ho, hd.clause]
  have hgr : group rest (b ++ e :: ts) = .ok (b, ts) := group_enclosed he hb
  rw [parseTokens, ha]
  simp only [hn, Bool.not_true, Bool.false_and]
  rw [if_neg (by simp)]
  split
  · rename_i h
    rw [hgr] at h
    cases h
  · rename_i b' us' h
    rw [hgr] at h
    obtain ⟨rfl, rfl⟩ := Prod.mk.inj (Except.ok.inj h)
    rfl

theorem parse_comma (ht : t.isComma = true) (hf : d.fragment.isBalanced = true) :
    parseTokens rest (t :: ts) d = parseTokens rest ts d.comma := by
  have ha : d.action t = .comma := by
    have hk := ht
    simp only [isComma, Bool.and_eq_true, decide_eq_true_eq] at hk
    simp [Draft.action, hk.1, hf, ht]
  rw [parseTokens, ha]

theorem parse_conjunction (ht : t.kind = .conjunction) (hc : d.clause.isPredicate = true)
    (hf : d.fragment.isBalanced = true) :
    parseTokens rest (t :: ts) d = parseTokens rest ts (d.flush.pushToken t) := by
  have ha : d.action t = .conjunction := by simp [Draft.action, ht, hc]
  rw [parseTokens, ha]
  simp only [Draft.conjunction, hf, if_true]

theorem Reads.clean {f g : Fragment} {xs : List Text} (h : Reads c n f ts xs g) (hf : f.Clean) :
    g.Clean := by
  induction h with
  | nil => exact hf
  | blank _ _ ih => exact ih hf
  | token _ _ ih => exact ih (Fragment.clean_pushToken _ _)
  | comma _ _ _ ih => exact ih Fragment.clean_empty
  | conjunction _ _ _ _ ih => exact ih (Fragment.clean_pushToken _ _)
  | member _ _ _ _ _ _ _ ih => exact ih (Fragment.clean_pushText _ _)
  | alone _ _ _ ih => exact ih (Fragment.clean_pushToken _ _)
  | raw _ _ _ _ _ _ _ ih => exact ih (Fragment.clean_pushText _ _)

/-- No parenthesis comes next. -/
def NoGroup (ts : List Token) : Prop := ∀ o ∈ (ts.dropWhile isBlank).head?, o.isOpenParen = false

theorem noGroup_nil : NoGroup [] := nofun

theorem noGroup_blank {t : Token} (h : t.isBlank = true) (ts : List Token) :
    NoGroup (t :: ts) ↔ NoGroup ts := by
  rw [NoGroup, List.dropWhile_cons_of_pos h, NoGroup]

theorem noGroup_cons {t : Token} (h : t.isBlank = false) (ts : List Token) :
    NoGroup (t :: ts) ↔ t.isOpenParen = false := by
  rw [NoGroup, List.dropWhile_cons_of_neg (by simp [h])]
  simp

theorem NoGroup.append {a b us : List Token} (h : NoGroup (a ++ b)) (hu : NoGroup us) :
    NoGroup (a ++ us) := by
  induction a with
  | nil => exact hu
  | cons t a ih =>
    cases ht : t.isBlank with
    | true => exact (noGroup_blank ht _).2 (ih ((noGroup_blank ht _).1 h))
    | false => exact (noGroup_cons ht _).2 ((noGroup_cons ht _).1 h)

namespace Draft.At

/-- A comma ends an item. -/
theorem comma_eq (h : d.At c n) (hf : d.fragment.Clean) : d.comma =
    (d.addItems (d.fragment.take?.toList ++ if c = .slot .condition then [[',']] else [])).hold {} := by
  rw [Draft.comma, Draft.flush_eq hf, h.clause, Draft.addItems_append]
  split
  · rw [Draft.push_hold]
    rfl
  · rfl

theorem comma (h : d.At c n) (hf : d.fragment.Clean) : d.comma.At c (n || d.fragment.take?.isSome) := by
  have hat := (h.addItems (d.fragment.take?.toList ++ if c = .slot .condition then [[',']] else [])).hold {}
  rw [h.comma_eq hf]
  refine ⟨hat.clause, fun hs ↦ ?_⟩
  obtain ⟨items, hq, hne⟩ := hat.source hs
  refine ⟨items, hq, fun hn ↦ hne ?_⟩
  cases hx : d.fragment.take? <;> simp_all

theorem flush (h : d.At c n) (hf : d.fragment.Clean) (hc : c.isPredicate = true) : d.flush.At c n := by
  rw [Draft.flush_eq hf]
  refine ⟨(h.addItems _).clause, fun hs ↦ ?_⟩
  rw [hs] at hc
  cases hc

end Draft.At

/-- A parser does with tokens what they read as, whatever follows them. -/
theorem Reads.parse {f g : Fragment} {xs : List Text} (h : Reads c n f ts xs g) (hf : f.Clean)
    (hd : d.At c n) (hdf : d.fragment = f) (hu : NoGroup us) :
    parseTokens rest (ts ++ us) d = parseTokens rest us ((d.addItems xs).hold g) := by
  induction h generalizing d with
  | nil =>
    subst hdf
    rfl
  | blank ht _ ih => rw [List.cons_append, parse_blank ht, ih hf hd hdf]
  | @token n f t ts xs g ht _ ih =>
    subst hdf
    have ih := ih (Fragment.clean_pushToken _ _) (hd.hold (d.fragment.pushToken t)) rfl
    rw [List.cons_append, parse_push ht hd, Draft.pushToken_eq, ih, Draft.addItems_hold,
      Draft.hold_hold]
  | @comma n f t ts xs g ht hb _ ih =>
    subst hdf
    have hat := hd.comma hf
    have hc := hd.comma_eq hf
    rw [hc] at hat
    rw [List.cons_append, parse_comma ht hb, hc, ih Fragment.clean_empty hat rfl,
      Draft.addItems_hold, Draft.hold_hold, ← Draft.addItems_append]
  | @conjunction n f t ts xs g ht hc hb _ ih =>
    subst hdf
    have hat := (hd.flush hf hc).hold (Fragment.pushToken t {})
    rw [Draft.flush_eq hf, Draft.hold_hold] at hat
    rw [List.cons_append, parse_conjunction ht (hd.clause ▸ hc) hb, Draft.flush_eq hf,
      Draft.pushToken_eq, Draft.hold_hold, Draft.hold_fragment, ih (Fragment.clean_pushToken _ _) hat rfl,
      Draft.addItems_hold, Draft.hold_hold, ← Draft.addItems_append]
  | @member n f t gs o b e ts q xs g ht hg ho he hb hq _ ih =>
    subst hdf
    have ih := ih (Fragment.clean_pushText _ _)
      (hd.hold ((d.fragment.pushToken t).pushText (membershipText q))) rfl
    rw [List.cons_append, List.append_assoc, List.cons_append, List.append_assoc, List.cons_append,
      parse_member ht hg ho he hb hq]
    exact ih.trans (by rw [Draft.addItems_hold, Draft.hold_hold])
  | @alone n f t ts xs g ht ho _ ih =>
    subst hdf
    have ih := ih (Fragment.clean_pushToken _ _) (hd.hold (d.fragment.pushToken t)) rfl
    rw [List.cons_append, parse_alone ht, Draft.pushToken_eq, ih, Draft.addItems_hold,
      Draft.hold_hold]
    exact NoGroup.append (b := []) (by rwa [List.append_nil]) hu
  | @raw n f o b e ts xs g hc hb hn ho he hbal _ ih =>
    subst hdf hc
    have ih := ih (Fragment.clean_pushText _ _)
      (hd.hold (d.fragment.pushText ('(' :: textOf b ++ ")"))) rfl
    rw [List.cons_append, List.append_assoc, List.cons_append, parse_raw hd hb hn ho he hbal,
      Draft.pushText_eq, ih, Draft.addItems_hold, Draft.hold_hold]

end QueryTemplate
