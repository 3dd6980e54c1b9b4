import QueryTemplate.Proofs.Query.CellText
namespace QueryTemplate

open Token Fragment

/-- What a clause keyword and the tokens after it put into a query. -/
inductive Filling
  | items (c : Clause) (xs : List Text)
  /-- A subquery in `FROM` and its aliases. -/
  | subquery (q : Query) (aliases : List Text)

namespace Filling

def clause : Filling → Clause
  | items c _ => c
  | subquery .. => .source

@[simp] theorem clause_items (c : Clause) (xs : List Text) : (items c xs).clause = c := rfl

@[simp] theorem clause_subquery (q : Query) (xs : List Text) : (subquery q xs).clause = .source :=
  rfl

def lines (indent : Text) : Filling → List Text
  | items c xs => Query.listLines indent c xs
  | subquery q xs => [Query.subqueryLine indent q xs]

end Filling

namespace Query

def put (q : Query) : Filling → Query
  | .items c xs => q.assign xs c
  | .subquery r xs =>
    let q := { q with source := some (.subquery r) }
    if xs = [] then q else q.assign xs (.slot .aliases)

def puts (q : Query) (xs : List Filling) : Query := xs.foldl put q

/-- The clauses of some fillings are still closed. -/
structure Accepts (q : Query) (xs : List Filling) : Prop where
  order : ∀ x ∈ xs, x.clause ∈ Clause.printOrder
  nodup : (xs.map Filling.clause).Nodup
  closed : ∀ x ∈ xs, q.has x.clause = false
  aliases : (∃ x ∈ xs, x.clause = .source) → q.has (.slot .aliases) = false

variable {q : Query} {x : Filling} {xs ys : List Filling} {c e : Clause}

theorem isListed_of_order (h : c ∈ Clause.printOrder) : c.isListed = true ∧ c ≠ .slot .aliases := by
  have hall : ∀ c ∈ Clause.printOrder, c.isListed = true ∧ c ≠ .slot .aliases := by decide
  exact hall c h

theorem has_put (h : x.clause ∈ Clause.printOrder) (he : e ≠ .slot .aliases) :
    (q.put x).has e = (decide (e = x.clause) || q.has e) := by
  cases x with
  | items c xs => exact has_assign (isListed_of_order h).1
  | subquery r xs =>
    have hs : ({ q with source := some (.subquery r) } : Query).has e =
        (decide (e = .source) || q.has e) := by
      cases e <;> simp [has, lookupCall]
    refine Eq.trans ?_ hs
    rw [put]
    split
    · rfl
    · rw [has_assign rfl, decide_eq_false he, Bool.false_or]

theorem has_aliases_put (h : x.clause ∈ Clause.printOrder) (hs : x.clause ≠ .source) :
    (q.put x).has (.slot .aliases) = q.has (.slot .aliases) := by
  cases x with
  | items c xs =>
    obtain ⟨hl, ha⟩ := isListed_of_order (show c ∈ Clause.printOrder from h)
    rw [put, has_assign hl, decide_eq_false (Ne.symm ha), Bool.false_or]
  | subquery => exact absurd rfl hs

theorem Accepts.left (h : q.Accepts (xs ++ ys)) : q.Accepts xs where
  order x hx := h.order x (List.mem_append_left _ hx)
  nodup := by
    have := h.nodup
    rw [List.map_append] at this
    exact (List.nodup_append.1 this).1
  closed x hx := h.closed x (List.mem_append_left _ hx)
  aliases := fun ⟨x, hx, hc⟩ ↦ h.aliases ⟨x, List.mem_append_left _ hx, hc⟩

theorem Accepts.tail (h : q.Accepts (x :: xs)) : (q.put x).Accepts xs := by
  obtain ⟨hx, ho⟩ := List.forall_mem_cons.1 h.order
  obtain ⟨hn, hd⟩ := List.nodup_cons.1 h.nodup
  have hne : ∀ y ∈ xs, y.clause ≠ x.clause := fun y hy e ↦ hn (e ▸ List.mem_map_of_mem hy)
  refine ⟨ho, hd, fun y hy ↦ ?_, ?_⟩
  · rw [has_put hx (isListed_of_order (ho y hy)).2, decide_eq_false (hne y hy), Bool.false_or]
    exact h.closed y (List.mem_cons_of_mem _ hy)
  · rintro ⟨y, hy, hs⟩
    rw [has_aliases_put hx (hs ▸ (hne y hy).symm)]
    exact h.aliases ⟨y, List.mem_cons_of_mem _ hy, hs⟩

theorem Accepts.right (h : q.Accepts (xs ++ ys)) : (q.puts xs).Accepts ys := by
  induction xs generalizing q with
  | nil => exact h
  | cons x xs ih => exact ih h.tail

end Query

/-- Tokens put the fillings `xs` into a query, whatever follows them. -/
def Fills (ts : List Token) (xs : List Filling) : Prop :=
  ∀ {q : Query} {d : Draft} {us : List Token}, d.Ends q → q.Accepts xs → NoGroup us →
    ∃ d', parseTokens [] (ts ++ us) d = parseTokens [] us d' ∧ d'.Ends (q.puts xs)

variable {a b ts us : List Token} {t g : Token} {xs ys : List Filling} {c : Clause} {n : Bool}
    {f k : Fragment}

theorem Fills.append (ha : Fills a xs) (hb : Fills b ys)
    (hn : ∀ us, NoGroup us → NoGroup (b ++ us)) :
    Fills (a ++ b) (xs ++ ys) := by
  intro q d us hd hq hu
  obtain ⟨d₁, h₁, hd₁⟩ := ha hd hq.left (hn us hu)
  obtain ⟨d₂, h₂, hd₂⟩ := hb hd₁ hq.right hu
  refine ⟨d₂, by rw [List.append_assoc, h₁, h₂], ?_⟩
  rwa [Query.puts, List.foldl_append]

theorem Fills.blank (h : Fills ts xs) (hg : g.isBlank = true) : Fills (g :: ts) xs := by
  intro q d us hd hq hu
  rw [List.cons_append, parse_blank hg]
  exact h hd hq hu

/-- The depth of an expression is that of the tokens read. -/
theorem Reads.depth {ys : List Text} (h : Reads c n f ts ys k) {d e : Nat} (hd : f.depth = d)
    (hr : depthRun d ts = some e) :
    k.depth = e := by
  have hsame : ∀ {t : Token} {d : Nat} (ts : List Token), t.kind ≠ .opening → t.kind ≠ .closing →
      depthRun d (t :: ts) = depthRun d ts ∧ ∀ f : Fragment, (f.pushToken t).depth = f.depth := by
    intro t d ts ho hc
    simp [depthRun, Fragment.pushToken, isOpenParen, isCloseParen, ho, hc]
  induction h generalizing d with
  | nil =>
    obtain rfl := Option.some.inj hr
    exact hd
  | @blank n f t ts ys k ht _ ih =>
    have hk : t.kind = .blank := by simpa [Token.isBlank] using ht
    rw [(hsame ts (by simp [hk]) (by simp [hk])).1] at hr
    exact ih hd hr
  | @token n f t ts ys k ht _ ih =>
    obtain ⟨h₁, h₂⟩ := depthRun_cons (f := f) hr
    exact ih (h₂ hd) h₁
  | @comma n f t ts ys k ht hf _ ih =>
    simp only [isComma, Bool.and_eq_true, decide_eq_true_eq] at ht
    rw [(hsame ts (by simp [ht.1]) (by simp [ht.1])).1] at hr
    obtain rfl := (isBalanced_iff hd).1 hf
    exact ih rfl hr
  | @conjunction n f t ts ys k ht _ hf _ ih =>
    obtain ⟨h₁, h₂⟩ := hsame (d := d) ts (show t.kind ≠ .opening by simp [ht]) (by simp [ht])
    rw [h₁] at hr
    obtain rfl := (isBalanced_iff hd).1 hf
    exact ih (h₂ {}) hr
  | @member n f t gs o b e ts q ys k ht hg ho he hb _ _ ih =>
    obtain ⟨h₁, h₂⟩ := hsame
      (d := d) (gs ++ o :: (b ++ e :: ts)) (show t.kind ≠ .opening by simp [ht]) (by simp [ht])
    rw [h₁, depthRun_append, depthRun_blanks hg, Option.bind_some, depthRun_group ho he hb] at hr
    exact ih ((h₂ f).trans hd) hr
  | @alone n f t ts ys k ht _ _ ih =>
    obtain ⟨h₁, h₂⟩ := hsame (d := d) ts (show t.kind ≠ .opening by simp [ht]) (by simp [ht])
    rw [h₁] at hr
    exact ih ((h₂ f).trans hd) hr
  | @raw n f o b e ts ys k _ _ _ ho he hb _ ih =>
    rw [depthRun_group ho he hb] at hr
    exact ih hd hr

/-- Tokens that are read as items leave a draft that ends in them. -/
theorem ReadsTo.parse {items : List Text} {d : Draft} (h : ReadsTo c n {} ts items)
    (hb : Balanced ts) (hd : d.At c n) (hf : d.fragment = {}) (hu : NoGroup us) :
    ∃ d', parseTokens [] (ts ++ us) d = parseTokens [] us d' ∧
      d'.flush = d.addItems items ∧ d'.fragment.isBalanced = true ∧
          ∃ ys, d'.query = (d.addItems ys).query := by
  obtain ⟨ys, g, hr, rfl⟩ := h
  refine ⟨_, hr.parse Fragment.clean_empty hd hf hu, ?_, (isBalanced_iff (hr.depth rfl hb)).2 rfl,
    ys, rfl⟩
  have hg := hr.clean Fragment.clean_empty
  rw [Draft.flush_eq hg, Draft.addItems_hold, Draft.hold_hold, Draft.hold_fragment,
    ← Draft.addItems_append]
  obtain ⟨q, c, f⟩ := d
  obtain rfl : f = {} := hf
  rw [← Draft.addItems_hold]
  rfl

/-- A clause keyword and items. -/
theorem fills_items {items : List Text} (ht : t.kind = .clause)
    (hw : Clause.ofKeyword? t.keyword = some c) (hr : ReadsTo c false {} ts items)
    (hb : Balanced ts) : Fills (t :: ts) [.items c items] := by
  intro q d us hd hq hu
  have hc : c ∈ Clause.printOrder := hq.order _ (List.mem_singleton_self _)
  obtain ⟨hl, -⟩ := Query.isListed_of_order hc
  have hat : Draft.At c false ⟨q.assign [] c, c, {}⟩ :=
    ⟨rfl, fun e ↦ ⟨[], by subst e; rfl, by simp⟩⟩
  obtain ⟨d', h₁, h₂, h₃, ys, h₄⟩ := hr.parse hb hat rfl hu
  rw [Draft.addItems_assign hl] at h₂ h₄
  refine ⟨d', ?_, ?_, h₃, fun e _ ↦ ?_⟩
  · rw [List.cons_append, hd.parse_heading ht hw hl (hq.closed _ (List.mem_singleton_self _)), h₁]
  · rw [h₂]
    rfl
  · rw [h₄]
    exact (Query.has_assign hl).trans (Query.has_assign hl).symm

theorem parse_blanks {rest : Text} {d : Draft} {gs : List Token} (hg : ∀ t ∈ gs, t.isBlank = true)
    (ts : List Token) :
    parseTokens rest (gs ++ ts) d = parseTokens rest ts d := by
  induction gs with
  | nil => rfl
  | cons g gs ih =>
    obtain ⟨hg, hgs⟩ := List.forall_mem_cons.1 hg
    rw [List.cons_append, parse_blank hg, ih hgs]

theorem fills_blanks {gs : List Token} (hg : ∀ g ∈ gs, g.isBlank = true) : Fills gs [] :=
  fun {_ d us} hd _ _ ↦ ⟨d, parse_blanks hg us, hd⟩

/-- A parenthesis just after `FROM` encloses a subquery. -/
theorem parse_subquery {rest : Text} {d : Draft} {o e : Token} {r : Query} (hc : d.clause = .source)
    (hf : d.fragment = {}) (hs : d.query.source = some (.table [])) (ho : o.isOpenParen = true)
    (he : e.isCloseParen = true) (hb : Balanced b) (hr : parseTokens [] b {} = .ok r) :
    parseTokens rest (o :: (b ++ e :: us)) d = parseTokens rest us (d.setSubquery r) :=
  parseTokens_step ((Draft.step_subquery hc hf hs ho he hb).trans (by rw [hr]; rfl))

/-- Items after a subquery in `FROM` are its aliases. -/
theorem addItems_aliases {q : Query} {items : List Text} (h : q.has (.slot .aliases) = false) :
    (Draft.addItems items ⟨q, .slot .aliases, f⟩).query = if items = [] then q
      else q.assign items (.slot .aliases) := by
  cases items with
  | nil => rfl
  | cons x xs =>
    have hq : q.slots.get .aliases = none := by simpa [Query.has] using h
    have hp : Draft.push x ⟨q, .slot .aliases, f⟩ = ⟨q.assign [x] (.slot .aliases), .slot .aliases,
        f⟩ := by
      simp [Draft.push, Query.push?, Query.modify?, hq, Query.assign]
    rw [Draft.addItems, List.foldl_cons, hp, ← Draft.addItems, Draft.addItems_assign rfl]
    rfl

/-- `FROM`, a subquery and its aliases. -/
theorem fills_subquery {gs : List Token} {o e : Token} {r : Query} {aliases : List Text}
    (ht : t.kind = .clause) (hw : Clause.ofKeyword? t.keyword = some .source)
    (hg : ∀ u ∈ gs, u.isBlank = true) (ho : o.isOpenParen = true) (he : e.isCloseParen = true)
    (hb : Balanced b) (hr : parseTokens [] b {} = .ok r)
    (ha : ReadsTo (.slot .aliases) false {} ts aliases) (hts : Balanced ts) :
    Fills (t :: (gs ++ o :: (b ++ e :: ts))) [.subquery r aliases] := by
  intro q d us hd hq hu
  have hqa : Query.has { q with source := some (.subquery r) } (.slot .aliases) = false :=
    hq.aliases ⟨_, List.mem_singleton_self _, rfl⟩
  have hset : (Draft.mk (q.assign [] .source) .source {}).setSubquery r =
      ⟨{ q with source := some (.subquery r) }, .slot .aliases, {}⟩ := rfl
  have hat : Draft.At (.slot .aliases) false ⟨{ q with source := some (.subquery r) },
    .slot .aliases, {}⟩ :=
    ⟨rfl, fun h ↦ by cases h⟩
  obtain ⟨d', h₁, h₂, h₃, ys, h₄⟩ := ha.parse hts hat rfl hu
  refine ⟨d', ?_, ?_, h₃, fun c hc ↦ ?_⟩
  · rw [List.cons_append, hd.parse_heading ht hw rfl (hq.closed _ (List.mem_singleton_self _)),
      List.append_assoc, parse_blanks hg, List.cons_append, List.append_assoc, List.cons_append,
      parse_subquery rfl rfl rfl ho he hb hr, hset, h₁]
  · rw [h₂, addItems_aliases hqa]
    rfl
  · have hne : c ≠ .slot .aliases := by
      have hall : ∀ c ∈ Clause.keywordClauses, c ≠ .slot .aliases := by decide
      exact hall c hc
    have hput : ∀ zs, (q.put (.subquery r zs)).has c = (decide (c = .source) || q.has c) := fun zs ↦
      Query.has_put (show Clause.source ∈ Clause.printOrder by decide) hne
    have hys : d'.query = q.put (.subquery r ys) := h₄.trans (addItems_aliases hqa)
    rw [hys, hput]
    exact (hput aliases).symm

namespace Query

variable {indent : Text} {q : Query} {x : Filling} {xs : List Filling} {c : Clause}

theorem clauseOf_put (h : x.clause ∈ Clause.printOrder)
    (ha : x.clause = .source → q.has (.slot .aliases) = false) (hc : c ∈ Clause.printOrder) :
    (q.put x).clauseOf indent c = if c = x.clause then x.lines indent else q.clauseOf indent c := by
  obtain ⟨hlc, hca⟩ := isListed_of_order hc
  cases x with
  | items e ys =>
    obtain ⟨hl, hea⟩ := isListed_of_order (show e ∈ Clause.printOrder from h)
    by_cases hce : c = e
    · subst hce
      rw [Filling.clause_items, if_pos rfl]
      exact clauseOf_of_items indent (items_assign hl)
    · rw [Filling.clause_items, if_neg hce]
      cases c with
      | source =>
        cases e with
        | slot s =>
          have hs : (q.slots.set ys s).aliases = q.slots.aliases :=
            q.slots.get_set_of_ne ys (r := .aliases) fun e ↦ hea (by rw [e])
          simp only [clauseOf, put, assign, hs]
        | source => exact absurd rfl hce
        | root | unions | call => cases hl
      | slot s => simp only [clauseOf, put, items_assign_of_ne hl hce]
      | root | unions | call => cases hlc
  | subquery r ys =>
    have hq : q.slots.aliases = none := by simpa [has, Slots.get] using ha rfl
    cases c with
    | source =>
      rw [Filling.clause_subquery, if_pos rfl]
      by_cases hy : ys = []
      · simp [clauseOf, put, hy, hq, Filling.lines]
      · simp [clauseOf, put, hy, assign, Slots.set, Filling.lines]
    | slot s =>
      rw [if_neg (by simp)]
      by_cases hy : ys = []
      · simp only [clauseOf, put, hy, if_true]
        rfl
      · simp only [clauseOf, put, hy, if_false,
          items_assign_of_ne (show (Clause.slot .aliases).isListed = true from rfl) hca]
        rfl
    | root | unions | call => cases hlc

theorem clauseOf_puts (h : q.Accepts xs) (hc : c ∈ Clause.printOrder) :
    (q.puts xs).clauseOf indent c = match xs.find? (·.clause = c) with
      | some x => x.lines indent
      | none => q.clauseOf indent c := by
  induction xs generalizing q with
  | nil => rfl
  | cons x xs ih =>
    rw [puts, List.foldl_cons, ← puts, ih h.tail, clauseOf_put (h.order x List.mem_cons_self)
      (fun hs ↦ h.aliases ⟨x, List.mem_cons_self, hs⟩) hc]
    by_cases hx : x.clause = c
    · have hn : xs.find? (·.clause = c) = none := by
        refine List.find?_eq_none.2 fun y hy e ↦ (List.nodup_cons.1 h.nodup).1 ?_
        rw [show x.clause = y.clause from hx.trans (show y.clause = c by simpa using e).symm]
        exact List.mem_map_of_mem hy
      rw [hn, List.find?_cons_of_pos (by simpa using hx)]
      exact if_pos hx.symm
    · rw [List.find?_cons_of_neg (by simpa using hx)]
      cases xs.find? (·.clause = c) with
      | some y => rfl
      | none => exact if_neg (Ne.symm hx)

theorem put_rest (q : Query) (x : Filling) : (q.put x).root = q.root ∧ (q.put x).calls = q.calls ∧
    (q.put x).joins = q.joins ∧ (q.put x).unions = q.unions := by
  cases x with
  | items c xs => cases c <;> exact ⟨rfl, rfl, rfl, rfl⟩
  | subquery r xs =>
    rw [put]
    split <;> exact ⟨rfl, rfl, rfl, rfl⟩

theorem puts_rest (q : Query) (xs : List Filling) :
    (q.puts xs).root = q.root ∧ (q.puts xs).calls = q.calls ∧
    (q.puts xs).joins = q.joins ∧ (q.puts xs).unions = q.unions := by
  induction xs generalizing q with
  | nil => exact ⟨rfl, rfl, rfl, rfl⟩
  | cons x xs ih =>
    obtain ⟨h₁, h₂, h₃, h₄⟩ := put_rest q x
    obtain ⟨i₁, i₂, i₃, i₄⟩ := ih (q.put x)
    exact ⟨i₁.trans h₁, i₂.trans h₂, i₃.trans h₃, i₄.trans h₄⟩

theorem has_puts (h : ∀ x ∈ xs, x.clause ∈ Clause.printOrder) (hc : c ≠ .slot .aliases) :
    (q.puts xs).has c = (xs.any (·.clause = c) || q.has c) := by
  induction xs generalizing q with
  | nil => rfl
  | cons x xs ih =>
    obtain ⟨hx, h⟩ := List.forall_mem_cons.1 h
    have hcomm : decide (c = x.clause) = decide (x.clause = c) := by simp [eq_comm]
    rw [puts, List.foldl_cons, ← puts, ih h, has_put hx hc, List.any_cons, hcomm, Bool.or_left_comm,
      Bool.or_assoc]

theorem select_puts (h : .items (.slot .select) [] ∉ xs) (hq : q.slots.select ≠ some []) :
    (q.puts xs).slots.select ≠ some [] := by
  induction xs generalizing q with
  | nil => exact hq
  | cons x xs ih =>
    rw [List.mem_cons, not_or] at h
    obtain ⟨hx, h⟩ := h
    refine ih h ?_
    cases x with
    | items c ys =>
      cases c with
      | slot s =>
        cases s with
        | select => simpa [put, assign, Slots.set] using hx
        | _ => exact hq
      | root | source | unions | call => exact hq
    | subquery r ys =>
      rw [put]
      split <;> exact hq

/-- A query that holds clauses and nothing else, but for what follows `UNION ALL`. -/
structure Clausal (q : Query) : Prop where
  root : q.root = []
  calls : q.calls = []
  joins : q.joins = []
  select : q.slots.select ≠ some []
  opens : ∃ c ∈ Clause.printOrder, q.has c = true

theorem clausal_puts (h : Accepts {} xs) (hs : .items (.slot .select) [] ∉ xs) (hne : xs ≠ []) :
    (puts {} xs).Clausal := by
  obtain ⟨h₁, h₂, h₃, -⟩ := puts_rest {} xs
  obtain ⟨x, hx⟩ := List.exists_mem_of_ne_nil xs hne
  refine ⟨h₁, h₂, h₃, select_puts hs (by simp), x.clause, h.order x hx, ?_⟩
  rw [has_puts h.order (isListed_of_order (h.order x hx)).2, Bool.or_eq_true, List.any_eq_true]
  exact .inl ⟨x, hx, by simp⟩

theorem Clausal.isBareRoot (h : q.Clausal) : q.isBareRoot = false := by
  obtain ⟨c, hc, hq⟩ := h.opens
  have hall : ∀ c ∈ Clause.printOrder, has {} c = false := by decide
  rw [Query.isBareRoot, decide_eq_false_iff_not, h.root]
  intro e
  rw [e, hall c hc] at hq
  cases hq

theorem Clausal.with_unions (h : q.Clausal) (us : Option (List Query)) :
    Clausal { q with unions := us } := by
  obtain ⟨c, hc, hq⟩ := h.opens
  have hall : ∀ c ∈ Clause.printOrder, c ≠ .unions := by decide
  refine ⟨h.root, h.calls, h.joins, h.select, c, hc, ?_⟩
  cases c with
  | unions => exact absurd rfl (hall _ hc)
  | root | source | slot | call => exact hq

/-- The statements after `UNION ALL` are printed after the clauses of the first one. -/
theorem lines_with_unions (h : q.Clausal) (hu : q.unions = none) {us : Option (List Query)}
    (hf : us = none ∨ q.slots.format = none) :
    lines indent { q with unions := us } = q.lines indent ++ branchLines indent { q with unions :=
  us } := by
  have hq := lines_eq indent h.root h.calls h.joins h.select (.inl hu)
  have hnone : q.branchLines indent = [] := by rw [branchLines, hu]
  rw [hnone, List.append_nil] at hq
  rw [hq]
  have hc : ∀ c, clauseOf indent { q with unions := us } c = q.clauseOf indent c := by
    intro c
    cases c <;> rfl
  rw [← funext hc]
  exact lines_eq indent h.root h.calls h.joins h.select hf

/-- A query that some fillings were put into is printed clause by clause. -/
theorem lines_puts (h : Accepts {} xs) (hs : .items (.slot .select) [] ∉ xs)
    (ho : (xs.map Filling.clause).Sublist Clause.printOrder) :
    (puts {} xs).lines indent = xs.flatMap (·.lines indent) := by
  obtain ⟨h₁, h₂, h₃, h₄⟩ := puts_rest {} xs
  have hnone : (puts {} xs).branchLines indent = [] := by rw [branchLines, h₄]
  rw [lines_eq indent h₁ h₂ h₃ (select_puts hs (by simp)) (.inl h₄), hnone, List.append_nil,
    ← flatMap_of_sublist ho (by decide)]
  have hempty : ∀ c ∈ Clause.printOrder, clauseOf indent {} c = [] := by
    simp [Clause.printOrder, clauseOf, items, Slots.get]
  refine flatMap_congr fun c hc ↦ ?_
  rw [clauseOf_puts h hc]
  cases xs.find? (·.clause = c) with
  | some x => rfl
  | none => exact hempty c hc

end Query
end QueryTemplate
