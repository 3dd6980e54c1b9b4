import QueryTemplate.Proofs.Aggregation.Rendered
namespace QueryTemplate

open Token Grammar

namespace Aggregation

variable {p : Parts} {s w x y : Text} {os : List Text} {items : Clause → Option (List Text)}

/-- The times of a bucket, in seconds or in milliseconds. -/
theorem term_times : Term "$timeSeries" ∧ Term "$timeSeriesMs" :=
  ⟨⟨[⟨.placeholder, "$timeSeries"⟩], by simp, by decide⟩, ⟨[⟨.placeholder, "$timeSeriesMs"⟩], by simp, by decide⟩⟩

theorem term_series : Term "$timeSeries AS t" := by
  simpa using term_times.1.named term_t

theorem bucketed_reaches (h : p.Holds items) {outer inner : List Text} (ho : Term (Text.join ", " outer))
    (hi : Term (Text.join ", " inner)) : Reaches (bucketed p outer inner) (withKeys ["t"] ["t"] items) := by
  have hinner := h.reaches (term_series.list hi) (.name alias_t) (.name alias_t)
  have houter := Reaches.outer (term_t.list ho) hinner
  show Reaches ("SELECT t, " ++ Text.join ", " outer ++ " FROM (SELECT $timeSeries AS t, " ++ Text.join ", " inner ++ " " ++
    p.sourceWithTail "t" "t" ++ ")") _
  simpa using houter

theorem Alias.term (h : Alias x) : Term x := by
  obtain ⟨t, ht, rfl⟩ := h
  exact ht.text

theorem Alias.suffixed (h : Alias x) (hw : IsSuffix w) : Term (x ++ w) := by
  obtain ⟨t, ht, rfl⟩ := h
  exact ht.suffixed hw

theorem Alias.counter (h : Alias x) (m : Mode) (c : Change) {reset : Option Text} (hr : ∀ r ∈ reset, Term r) :
    Term (m.counter x c reset) := by
  obtain ⟨t, ht, rfl⟩ := h
  exact m.term_counter c ht hr

theorem Alias.changed (h : Alias x) (m : Mode) : Term (m.changed x) := by
  obtain ⟨t, ht, rfl⟩ := h
  exact m.term_changed ht

theorem isSuffix_change : ∀ c : Change, IsSuffix c.suffix ∧ IsSuffix ("_" ++ c.suffix) ∧ IsSuffix (c.suffix ++ "Agg") := by
  intro c
  cases c <;> decide

theorem mem_numbered {α : Type} {xs : List α} {n : Nat} {e : Text × α} (h : e ∈ numbered n xs) : Alias e.1 ∧ e.2 ∈ xs := by
  induction xs generalizing n with
  | nil => cases h
  | cons x xs ih =>
    rcases List.mem_cons.1 h with rfl | h
    · exact ⟨⟨_, isAlias_numbered n, rfl⟩, List.mem_cons_self⟩
    · obtain ⟨ha, hm⟩ := ih h
      exact ⟨ha, List.mem_cons_of_mem _ hm⟩

theorem numbered_ne_nil {α : Type} {xs : List α} (h : xs ≠ []) (n : Nat) : numbered n xs ≠ [] := by
  cases xs with
  | nil => exact absurd rfl h
  | cons x xs => simp [numbered]

theorem Term.join_map {α : Type} {xs : List α} {f : α → Text} (hne : xs ≠ []) (h : ∀ x ∈ xs, Term (f x)) :
    Term (Text.join ", " (xs.map f)) :=
  .join (mt List.map_eq_nil_iff.1 hne) (List.forall_mem_map.2 h)

/-- One expression for each numbered column. -/
theorem Term.join_numbered {α : Type} {xs : List α} {f : Text × α → Text} (hne : xs ≠ [])
    (h : ∀ column, Alias column → ∀ x ∈ xs, Term (f (column, x))) : Term (Text.join ", " ((numbered 0 xs).map f)) := by
  refine .join_map (numbered_ne_nil hne 0) fun e he ↦ ?_
  obtain ⟨hcolumn, hmem⟩ := mem_numbered he
  exact h e.1 hcolumn e.2 hmem

/-- The greatest value of an expression as a column. -/
theorem term_greatest (hx : Term x) (hy : Alias y) : Term ("max(" ++ x ++ ") AS " ++ y) := by
  have hname : Term "max" := IsBareName.term (by decide)
  simpa using (hname.call hx).named hy.term

theorem rates_reaches (m : Mode) (h : p.Holds items) {args : List Text} (ha : ∀ a ∈ args, Term a) (hne : args ≠ [])
    (hs : rates m p args = .ok s) : Reaches s (withKeys ["t"] ["t"] items) := by
  obtain ⟨aliases, he, rfl⟩ := ok_of_map hs
  rw [mapM_eq_ok_iff] at he
  have hnone : aliases ≠ [] := by
    rintro rfl
    exact hne (List.map_eq_nil_iff.1 he)
  refine bucketed_reaches h (.join_map hnone fun name hk ↦ ?_) (.join hne ha)
  obtain ⟨e, k⟩ := name
  have hmem : Except.ok (e, k) ∈ args.map p.aliased := he ▸ List.mem_map_of_mem hk
  obtain ⟨a, hmem, hok⟩ := List.mem_map.1 hmem
  obtain ⟨t, ht, rfl⟩ := (aliased_term (ha a hmem) hok).2
  have hlast : (t.text ++ "/" ++ m.elapsed).getLast? = some ')' := by
    have hend : m.elapsed.getLast? = some ')' := by cases m <;> decide
    rw [List.getLast?_append, hend]
    rfl
  have hdivided := (m.term_divided ht).beside hlast (ht.suffixed (w := "Rate") (by decide))
  show Term (t.text ++ "/" ++ m.elapsed ++ " " ++ t.text ++ "Rate")
  simpa using hdivided

theorem counters_reaches (m : Mode) (c : Change) (h : p.Holds items) {args : List Text} (ha : ∀ a ∈ args, Term a) (hne : args ≠ []) :
    Reaches (counters m p c args) (withKeys ["t"] ["t"] items) := by
  refine bucketed_reaches h (.join_numbered hne fun column hc x hx ↦ ?_) (.join_numbered hne fun column hc x hx ↦ ?_)
  · have hcounter : Term (m.counter column c none) := hc.counter m c nofun
    have := hcounter.named (hc.suffixed (isSuffix_change c).2.1)
    simpa using this
  · exact term_greatest (ha x hx) hc

/-- Names that rows are grouped or ordered by. -/
theorem Content.names {c : Clause} (hc : c = .slot .groupBy ∨ c = .slot .orderBy) (hx : Alias x) (hy : Content c y os) :
    Content c (x ++ ", " ++ y) (x :: os) := by
  refine Content.cons ?_ hx hy
  rcases hc with rfl | rfl <;> decide

theorem term_groupArr : Term "groupArr" := IsBareName.term (by decide)

/-- The array of the values of a time bucket with their keys. -/
theorem term_pairs (hx : Term x) (hy : Term y) : Term ("groupArray((" ++ x ++ ", " ++ y ++ ")) AS groupArr") := by
  have harray : Term "groupArray" := IsBareName.term (by decide)
  simpa using (harray.call (hx.list hy).parens).named term_groupArr

theorem keyedColumns_reaches (h : p.Holds items) {series key value e k : Text} (hs : Term series) (hkey : Term key) (hvalue : Term value)
    (hk : p.aliased key = .ok (e, k)) (hr : keyedColumns p series key value = .ok s) :
    Reaches s (withKeys ["t", k] ["t", k] items) := by
  rw [keyedColumns, hk] at hr
  obtain ⟨⟨d, v⟩, hv, rfl⟩ := ok_of_map hr
  have halias : Alias k := (aliased_term hkey hk).2
  have hval : Alias v := (aliased_term hvalue hv).2
  have hinner := h.reaches (((hs.named term_t).list hkey).list hvalue) (.names (.inl rfl) alias_t (.name halias))
    (.names (.inr rfl) alias_t (.name halias))
  have hgrouped := Reaches.grouped (term_t.list (term_pairs halias.term hval.term)) hinner (.name alias_t) .none (.name alias_t)
  show Reaches ("SELECT t, groupArray((" ++ k ++ ", " ++ v ++ ")) AS groupArr FROM (SELECT " ++ series ++ " AS t, " ++ key ++ ", " ++
    value ++ " " ++ p.sourceWithTail ("t, " ++ k) ("t, " ++ k) ++ ") GROUP BY t ORDER BY t") _
  simpa [Tail.clause] using hgrouped

theorem rateColumns_reaches (m : Mode) (h : p.Holds items) {key value e k : Text} (hkey : Term key) (hvalue : Term value)
    (hk : p.aliased key = .ok (e, k)) (hr : rateColumns m p key value = .ok s) :
    Reaches s (withKeys ["t", k] ["t", k] items) := by
  obtain ⟨pivot, hp, rfl⟩ := ok_of_map hr
  have hpivot := keyedColumns_reaches h term_times.1 hkey hvalue hk hp
  cases m with
  | running =>
    have hmap : Term "arrayMap(a -> (a.1, a.2/runningDifference(t/1000)), groupArr)" :=
      ⟨(scan "arrayMap(a -> (a.1, a.2/runningDifference(t/1000)), groupArr)").tokens, by decide +kernel, by decide +kernel⟩
    have houter := Reaches.outer (term_t.list hmap) hpivot
    show Reaches ("SELECT t, arrayMap(a -> (a.1, a.2/" ++ Mode.elapsed .running ++ "), groupArr) FROM (" ++ pivot ++ ")") _
    rw [show Mode.elapsed .running = "runningDifference(t/1000)" from rfl]
    simpa using houter
  | window =>
    have hmap : Term "arrayMap(a -> (a.1, a.2/dt), groupArr)" :=
      ⟨(scan "arrayMap(a -> (a.1, a.2/dt), groupArr)").tokens, by decide +kernel, by decide +kernel⟩
    have hdt : Term "dt" := IsBareName.term (by decide)
    have hinner := Reaches.outer (term_t.list (term_groupArr.list ((Mode.term_elapsed .window).named hdt))) hpivot
    have houter := Reaches.outer (term_t.list hmap) hinner
    show Reaches ("SELECT t, arrayMap(a -> (a.1, a.2/dt), groupArr) FROM (SELECT t, groupArr, " ++ Mode.elapsed .window ++
      " AS dt FROM (" ++ pivot ++ "))") _
    simpa using houter

theorem alias_numbered_zero : Alias "max_0" := ⟨_, isAlias_numbered 0, rfl⟩

/-- The statement of a change by key. -/
theorem keyedCounter_reaches (m : Mode) (c : Change) (h : p.Holds items) {key value k : Text} (hkey : Term key) (hvalue : Term value)
    (hk : Alias k) : Reaches ("SELECT t, groupArray((" ++ k ++ ", " ++ ("max_0_" ++ c.suffix) ++ ")) AS groupArr FROM (SELECT t, " ++ k ++ ", " ++
      m.counter "max_0" c (some (m.changed k)) ++ " AS " ++ ("max_0_" ++ c.suffix) ++ " FROM (SELECT $timeSeries AS t, " ++ key ++
      ", max(" ++ value ++ ") AS max_0 " ++ p.sourceWithTail ("t, " ++ k) (k ++ ", t") ++ ")) GROUP BY t ORDER BY t")
      (withKeys ["t", k] [k, "t"] items) := by
  have hcolumn : Term ("max_0_" ++ c.suffix) := alias_numbered_zero.suffixed (isSuffix_change c).2.1
  have hcounter : Term (m.counter "max_0" c (some (m.changed k))) :=
    alias_numbered_zero.counter m c fun r hr ↦ Option.some.inj hr ▸ hk.changed m
  have hinner := h.reaches ((term_series.list hkey).list (term_greatest hvalue alias_numbered_zero))
    (.names (.inl rfl) alias_t (.name hk)) (.names (.inr rfl) hk (.name alias_t))
  have hmiddle := Reaches.outer ((term_t.list hk.term).list (hcounter.named hcolumn)) hinner
  have hgrouped := Reaches.grouped (term_t.list (term_pairs hk.term hcolumn)) hmiddle (.name alias_t) .none (.name alias_t)
  simpa [Tail.clause] using hgrouped

theorem counterColumns_reaches (m : Mode) (c : Change) (h : p.Holds items) {default key value : Text} (hkey : Term key) (hvalue : Term value)
    (hd : Alias default) (hr : counterColumns m p c default key value = .ok s) :
    ∃ o, splitAlias key = .ok o ∧
      Reaches s (withKeys ["t", (o.map Prod.snd).getD default] [(o.map Prod.snd).getD default, "t"] items) := by
  obtain ⟨o, ho, rfl⟩ := ok_of_map hr
  refine ⟨o, ho, ?_⟩
  cases o with
  | some a =>
    obtain ⟨ts, rfl, hts⟩ := hkey
    exact keyedCounter_reaches m c h ⟨ts, rfl, hts⟩ hvalue (splitAlias_term hts ho).2
  | none => exact keyedCounter_reaches m c h (hkey.named hd.term) hvalue hd

/-- The items without those of `HAVING`. -/
def withoutHaving (items : Clause → Option (List Text)) : Clause → Option (List Text)
  | .slot .having => none
  | c => items c

/-- What an expansion is built from can do without its `HAVING`. -/
theorem Parts.Holds.withoutHaving (h : p.Holds items) :
    Parts.Holds { p with tail := { p.tail with having := none } } (withoutHaving items) where
  source := h.source
  table := h.table
  groupBy := h.groupBy
  having := .none
  orderBy := h.orderBy
  limit := h.limit
  settings := h.settings

section

variable {values : List (Text × Text × Text)} {k sub : Text}

/-- Values with their functions and names, of which there is at least one. -/
structure AreValues (values : List (Text × Text × Text)) : Prop where
  ne_nil : values ≠ []
  function : ∀ v ∈ values, Term v.1
  term : ∀ v ∈ values, Term v.2.1
  name : ∀ v ∈ values, Alias v.2.2

namespace AreValues

/-- The functions of the values with their columns. -/
theorem term_aggregates (h : AreValues values) (c : Change) :
    Term (Text.join ", " (values.map fun (f, _, a) ↦ f ++ "(" ++ a ++ c.suffix ++ ") AS " ++ a ++ c.suffix ++ "Agg")) := by
  obtain ⟨hsuffix, -, hagg⟩ := isSuffix_change c
  refine .join_map h.ne_nil fun v hv ↦ ?_
  have ha := h.name v hv
  simpa using ((h.function v hv).call (ha.suffixed hsuffix)).named (ha.suffixed hagg)

/-- The changes of the greatest values. -/
theorem term_changes (h : AreValues values) (m : Mode) (c : Change) {reset : Text} (hr : Term reset) :
    Term (Text.join ", " ((numbered 0 values).map fun (column, _, _, a) ↦
      m.counter column c (some reset) ++ " AS " ++ a ++ c.suffix)) := by
  refine .join_numbered h.ne_nil fun column hcolumn v hv ↦ ?_
  have hcounter := hcolumn.counter m c fun r h ↦ Option.some.inj h ▸ hr
  simpa using hcounter.named ((h.name v hv).suffixed (isSuffix_change c).1)

/-- The greatest values of a time bucket. -/
theorem term_maxima (h : AreValues values) :
    Term (Text.join ", " ((numbered 0 values).map fun (column, _, e, _) ↦ "max(" ++ e ++ ") AS " ++ column)) :=
  .join_numbered h.ne_nil fun _ hcolumn v hv ↦ term_greatest (h.term v hv) hcolumn

end AreValues

/-- A statement by key over one by subkey. -/
theorem aggregated_reaches {outer middle inner key subkey : Text} (h : p.Holds items) (ho : Term outer) (hm : Term middle)
    (hi : Term inner) (hkey : Term key) (hsubkey : Term subkey) (hk : Alias k) (hs : Alias sub) :
    Reaches ("SELECT t, " ++ k ++ ", " ++ outer ++ " FROM (SELECT t, " ++ k ++ ", " ++ sub ++ ", " ++ middle ++
      " FROM (SELECT $timeSeries AS t, " ++ key ++ ", " ++ subkey ++ ", " ++ inner ++ " " ++
      attach p.source ("GROUP BY " ++ p.tail.groupBy.getD ("t, " ++ k ++ ", " ++ sub) ++ " ORDER BY " ++
        p.tail.orderBy.getD (k ++ ", " ++ sub ++ ", t") ++ p.tail.limits) ++
      ")) GROUP BY t, " ++ k ++ Tail.clause "HAVING" p.tail.having ++ " ORDER BY t, " ++ k)
      (withKeys ["t", k, sub] [k, sub, "t"] (withoutHaving items)) := by
  have hgroup : Content (.slot .groupBy) ("t, " ++ k ++ ", " ++ sub) ["t", k, sub] := by
    simpa using Content.names (.inl rfl) alias_t (.names (.inl rfl) hk (.name hs))
  have horder : Content (.slot .orderBy) (k ++ ", " ++ sub ++ ", t") [k, sub, "t"] := by
    simpa using Content.names (.inr rfl) hk (.names (.inr rfl) hs (.name alias_t))
  have hbucketed := h.withoutHaving.reaches (((term_series.list hkey).list hsubkey).list hi) hgroup horder
  rw [Parts.sourceWithTail, Tail.render_withoutHaving] at hbucketed
  have hchanged := Reaches.outer (((term_t.list hk.term).list hs.term).list hm) hbucketed
  have hgrouped := Reaches.grouped ((term_t.list hk.term).list ho) hchanged (.names (.inl rfl) alias_t (.name hk)) h.having
    (.names (.inr rfl) alias_t (.name hk))
  obtain ⟨h₁, h₂, h₃, h₄, h₅⟩ : ("SELECT t, " : Text) = "SELECT " ++ "t" ++ ", " ∧
      (" FROM (SELECT t, " : Text) = " FROM (" ++ "SELECT " ++ "t" ++ ", " ∧
      (" FROM (SELECT $timeSeries AS t, " : Text) = " FROM (" ++ "SELECT " ++ "$timeSeries AS t" ++ ", " ∧
      (")) GROUP BY t, " : Text) = ")" ++ ")" ++ " GROUP BY " ++ "t" ++ ", " ∧
      (" ORDER BY t, " : Text) = " ORDER BY " ++ "t" ++ ", " := by decide
  rw [h₁, h₂, h₃, h₄, h₅]
  simpa only [List.append_assoc] using hgrouped

end

theorem aggregatedColumns_reaches (m : Mode) (c : Change) (h : p.Holds items) {key subkey : Text} {pairs : List (Text × Text)}
    (hkey : Term key) (hsubkey : Term subkey) (hpairs : ∀ x ∈ pairs, Term x.1 ∧ Term x.2) (hne : pairs ≠ [])
    {e k e' sub : Text} (hk : p.aliased key = .ok (e, k)) (hsub : p.aliased subkey = .ok (e', sub))
    (hr : aggregatedColumns m p c key subkey pairs = .ok s) :
    Reaches s (withKeys ["t", k, sub] [k, sub, "t"] (withoutHaving items)) := by
  simp only [aggregatedColumns, hk, hsub, Except.bind] at hr
  obtain ⟨values, hv, rfl⟩ := ok_of_map hr
  have halias : Alias k := (aliased_term hkey hk).2
  have hsubalias : Alias sub := (aliased_term hsubkey hsub).2
  rw [mapM_eq_ok_iff] at hv
  have hmem : ∀ v ∈ values, Term v.1 ∧ Term v.2.1 ∧ Alias v.2.2 := by
    intro v hv'
    have hok : Except.ok v ∈ pairs.map _ := hv ▸ List.mem_map_of_mem hv'
    obtain ⟨x, hx, hok⟩ := List.mem_map.1 hok
    obtain ⟨a, ha, rfl⟩ := ok_of_map hok
    obtain ⟨hf, hvalue⟩ := hpairs x hx
    exact ⟨hf, aliased_term hvalue ha⟩
  have hvalues : AreValues values := by
    refine ⟨?_, fun v h ↦ (hmem v h).1, fun v h ↦ (hmem v h).2.1, fun v h ↦ (hmem v h).2.2⟩
    rintro rfl
    exact hne (List.map_eq_nil_iff.1 hv)
  have hreset : Term (m.changed k ++ " OR " ++ m.changed sub) := (halias.changed m).or (hsubalias.changed m)
  exact aggregated_reaches h (hvalues.term_aggregates c) (hvalues.term_changes m c hreset) hvalues.term_maxima hkey hsubkey
    halias hsubalias

/-- The items of the source that a macro keeps in its innermost statement. -/
def Shape.held (items : Clause → Option (List Text)) : Shape → Clause → Option (List Text)
  | .aggregated _ _ _ _ => withoutHaving items
  | _ => items

/-- The names that rows are grouped by and ordered by where the query says nothing else. -/
def Shape.keys (p : Parts) : Shape → Except Error (List Text × List Text)
  | .plain _ _ => .ok (["t"], ["t"])
  | .columns _ key _ | .pivoted .rate key _ => (p.aliased key).map fun (_, k) ↦ (["t", k], ["t", k])
  | .pivoted c key _ => (splitAlias key).map fun o ↦
      let k := (o.map Prod.snd).getD (c.name ++ "Columns")
      (["t", k], [k, "t"])
  | .aggregated _ key subkey _ => (p.aliased key).bind fun (_, k) ↦ (p.aliased subkey).map fun (_, sub) ↦
      (["t", k, sub], [k, sub, "t"])

/-- A macro whose arguments are expressions, as many as it needs. -/
inductive Shape.Terms : Shape → Prop
  | columns {series key value : Text} (hs : Term series) (hk : Term key) (hv : Term value) : Terms (.columns series key value)
  | plain {c : Change} {args : List Text} (ha : ∀ a ∈ args, Term a) (hne : args ≠ []) : Terms (.plain c args)
  | pivoted {c : Change} {key value : Text} (hk : Term key) (hv : Term value) : Terms (.pivoted c key value)
  | aggregated {c : Change} {key subkey : Text} {pairs : List (Text × Text)} (hk : Term key) (hs : Term subkey)
      (hp : ∀ x ∈ pairs, Term x.1 ∧ Term x.2) (hne : pairs ≠ []) : Terms (.aggregated c key subkey pairs)

theorem pairUp?_spec {xs : List Text} {ps : List (Text × Text)} (h : pairUp? xs = some ps) :
    (xs ≠ [] → ps ≠ []) ∧ ∀ x ∈ ps, x.1 ∈ xs ∧ x.2 ∈ xs := by
  induction xs using pairUp?.induct generalizing ps with
  | case1 =>
    obtain rfl := Option.some.inj h
    exact ⟨fun hne ↦ absurd rfl hne, nofun⟩
  | case2 => cases h
  | case3 f v r ih =>
    obtain ⟨ps, hps, rfl⟩ := Option.map_eq_some_iff.1 h
    refine ⟨fun _ ↦ List.cons_ne_nil _ _, List.forall_mem_cons.2 ⟨by simp, fun x hx ↦ ?_⟩⟩
    obtain ⟨h₁, h₂⟩ := (ih hps).2 x hx
    exact ⟨by simp [h₁], by simp [h₂]⟩

/-- A macro with expressions as its arguments is made of expressions. -/
theorem shape_terms (a : Aggregation) {args : List Text} {shape : Shape} (ha : ∀ x ∈ args, Term x) (hs : a.shape args = .ok shape) :
    shape.Terms := by
  revert hs
  fun_cases Aggregation.shape a args with
  | case1 key value =>
    rintro ⟨⟩
    exact .columns term_times.1 (ha key (by simp)) (ha value (by simp))
  | case2 key value =>
    rintro ⟨⟩
    exact .columns term_times.2 (ha key (by simp)) (ha value (by simp))
  | case3 c x xs =>
    rintro ⟨⟩
    exact .plain ha (List.cons_ne_nil x xs)
  | case4 c key value =>
    rintro ⟨⟩
    exact .pivoted (ha key (by simp)) (ha value (by simp))
  | case5 c key subkey f v r pairs hpairs =>
    rintro ⟨⟩
    obtain ⟨hne, hmem⟩ := pairUp?_spec hpairs
    have hrest : ∀ x ∈ f :: v :: r, Term x := fun x hx ↦ ha x (List.mem_cons_of_mem _ (List.mem_cons_of_mem _ hx))
    exact .aggregated (ha key (by simp)) (ha subkey (by simp)) (fun x hx ↦ ⟨hrest _ (hmem x hx).1, hrest _ (hmem x hx).2⟩)
      (hne (List.cons_ne_nil _ _))
  | case6 | case7 | case8 | case9 => nofun

theorem alias_columns (c : Change) : Alias (c.name ++ "Columns") := by
  cases c <;> exact ⟨nameToken _, IsBareName.alias (by decide), rfl⟩

/-- Whatever a macro stands for, the query that its statement is read as holds the clauses of the source at its innermost
level, grouped and ordered as the macro does where the source says nothing. -/
theorem render_reaches (m : Mode) (h : p.Holds items) {shape : Shape} (ha : shape.Terms) (hr : shape.render m p = .ok s) :
    ∃ gs os, shape.keys p = .ok (gs, os) ∧ Reaches s (withKeys gs os (shape.held items)) := by
  cases ha with
  | columns hs hk hv =>
    obtain ⟨⟨e, k⟩, hkey, -⟩ := ok_of_bind hr
    exact ⟨_, _, by simp only [Shape.keys, hkey, Except.map], keyedColumns_reaches h hs hk hv hkey hr⟩
  | @plain c args ha hne =>
    refine ⟨_, _, rfl, ?_⟩
    cases c with
    | rate => exact rates_reaches m h ha hne hr
    | perSecond | increase | delta =>
      obtain rfl := Except.ok.inj hr
      exact counters_reaches m _ h ha hne
  | @pivoted c key value hk hv =>
    cases c with
    | rate =>
      obtain ⟨pivot, hp, -⟩ := ok_of_map hr
      obtain ⟨⟨e, k⟩, hkey, -⟩ := ok_of_bind hp
      exact ⟨_, _, by simp only [Shape.keys, hkey, Except.map], rateColumns_reaches m h hk hv hkey hr⟩
    | perSecond | increase | delta =>
      obtain ⟨o, ho, hreach⟩ := counterColumns_reaches m _ h hk hv (alias_columns _) hr
      exact ⟨_, _, by simp only [Shape.keys, ho, Except.map], hreach⟩
  | aggregated hk hs hp hne =>
    obtain ⟨⟨e, k⟩, hkey, hrest⟩ := ok_of_bind hr
    obtain ⟨⟨e', sub⟩, hsub, -⟩ := ok_of_bind hrest
    exact ⟨_, _, by simp only [Shape.keys, hkey, hsub, Except.bind, Except.map],
      aggregatedColumns_reaches m _ h hk hs hp hne hkey hsub hr⟩

end Aggregation
end QueryTemplate
