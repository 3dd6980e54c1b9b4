import QueryTemplate.Proofs.Filter.Mention
import QueryTemplate.Proofs.Filter.Receptive
namespace QueryTemplate

open Token Formula

variable {r : Request} {template s out : Text} {q : Query} {ts : List Token} {cs : List (List Token)} {P : Token → Prop}

namespace Request

/-- The text of a query after conditionals and variables, and the query. -/
def read (r : Request) (template : Text) : Except Error (Text × Query) :=
  (resolveConditionals r.vars template).bind fun s ↦ (parse (interpolate r.vars s)).map fun q ↦ (interpolate r.vars s, q)

/-- The predicates of the filters that apply to a query. -/
def conditions (r : Request) (q : Query) : List Text :=
  Filter.conditions r.filters (Target.resolve? q r.options.database r.options.table)

/-- What becomes of a query with its filters. -/
def finish (r : Request) (f : Filtered) : Except Error Text :=
  (Aggregation.expand r.options.mode f.text f.query).bind fun s ↦ (r.fill f.adhoc s).bind fun s ↦
    if r.options.skipComments then stripComments s else .ok s

theorem compile_eq (r : Request) (template : Text) :
    r.compile template = (r.read template).bind fun p ↦ r.finish (r.filtered p.1 p.2) := by
  simp only [compile, read, bind, Except.bind]
  cases resolveConditionals r.vars template with
  | error => rfl
  | ok s =>
    simp only
    cases parse (interpolate r.vars s) <;> rfl

theorem filtered_eq (r : Request) (s : Text) (q : Query) :
    r.filtered s q = if r.conditions q = [] || mentions "adhoc" s then ⟨s, q, Filter.render (r.conditions q)⟩
      else ⟨(Filter.inject q (r.conditions q)).print, Filter.inject q (r.conditions q), Filter.render []⟩ := rfl

end Request

theorem first?_of_clausal (h : q.Clausal) : Aggregation.first? q = none := by
  refine List.find?_eq_none.2 fun m _ ↦ ?_
  simp [Query.has, Query.lookupCall, h.calls]

/-- Predicates that are put into `WHERE` are in the printed text. -/
theorem exists_printed (hP : Lax P) (hl : Lexed ts) (h : Regular ts) (ho : opensComment ts = false) (ht : ∀ t ∈ ts, P t)
    (hcs : ∀ c ∈ cs, IsCondition P c) (hne : cs ≠ []) (hq : parse (textOf ts) = .ok q) :
    ∃ ps, (Filter.inject q (cs.map textOf)).print = textOf ps ∧ IsBlock P ps ∧ (∀ c ∈ cs, c <:+: ps) ∧
      Aggregation.first? (Filter.inject q (cs.map textOf)) = none := by
  obtain ⟨q', hq', hr⟩ := h.level.receptive hP ht (h.placed hl) ho hcs hne
  obtain rfl : q' = q := by
    rw [parse_textOf hl, hq'.parse] at hq
    exact Except.ok.inj hq
  obtain ⟨ps, htext, -, hblock, hholds⟩ := hr.typeset [] nofun
  exact ⟨ps, htext, hblock, hholds, first?_of_clausal hr.clausal⟩

/-- A token without a dollar sign. -/
def Undollared (t : Token) : Prop := '$' ∉ t.text

instance : DecidablePred Undollared := fun t ↦ inferInstanceAs (Decidable ('$' ∉ t.text))

theorem lax_undollared : Lax Undollared := fun _ h ↦ h

theorem undollared_textOf (h : ∀ t ∈ ts, Undollared t) : '$' ∉ textOf ts := by
  rw [textOf, List.mem_flatMap]
  rintro ⟨t, ht, hd⟩
  exact h t ht hd

theorem not_call_of_undollared {t : Token} (h : Undollared t) : t.text ∉ callNames := by
  have hall : ∀ w ∈ callNames, '$' ∈ w := by decide
  exact fun hm ↦ h (hall _ hm)

/-- Predicates can be put into a query of the tokens `ts`: in the place of `$adhoc`, or into `WHERE`. -/
structure Takes (ts : List Token) (q : Query) : Prop where
  opener : opensComment ts = false
  dollars : OnlyAdhoc ts
  place : adhocToken ∈ ts ∧ Aggregation.first? q = none ∨ Regular ts

namespace Takes

theorem not_call (h : Takes ts q) : ∀ t ∈ ts, t.text ∉ callNames := by
  intro t ht
  rcases h.dollars t ht with rfl | h
  · decide
  · exact not_call_of_undollared h

/-- The predicates are put where the text asks for them. -/
theorem finish_adhoc (h : Takes ts q) (hl : Lexed ts) (hm : adhocToken ∈ ts) (hq : Aggregation.first? q = none)
    (hcs : r.conditions q = cs.map textOf) (hne : cs ≠ []) : r.finish (r.filtered (textOf ts) q) = r.measures.bind fun _ ↦
      if r.options.skipComments then stripComments (textOf (withAdhoc (conjoinedGroup cs) ts))
      else .ok (textOf (withAdhoc (conjoinedGroup cs) ts)) := by
  have hmentions := (mentions_iff hl h.dollars).2 hm
  have hsub : ∀ m, r.substituted (Filter.render (cs.map textOf)) m (textOf ts) = textOf (withAdhoc (conjoinedGroup cs) ts) := by
    intro m
    rw [Request.substituted, substitute_other hl h.dollars rfl, ← textOf_conjoinedGroup hne]
    exact substitute_adhoc hl h.dollars rfl
  rw [Request.filtered_eq, hmentions, Bool.or_true, if_pos rfl, hcs, Request.finish, Aggregation.expand, hq, Except.bind,
    Request.fill_eq, withoutCalls_textOf hl h.not_call]
  simp only [Except.bind, hsub]
  cases r.measures <;> rfl

/-- Otherwise the query is printed with them. -/
theorem finish_inject {ps : List Token} (h : Takes ts q) (hl : Lexed ts) (hm : adhocToken ∉ ts) (hcs : r.conditions q = cs.map textOf)
    (hne : cs ≠ []) (htext : (Filter.inject q (cs.map textOf)).print = textOf ps) (hps : Lexed ps) (ht : ∀ t ∈ ps, Undollared t)
    (hq : Aggregation.first? (Filter.inject q (cs.map textOf)) = none) : r.finish (r.filtered (textOf ts) q) = r.measures.bind fun _ ↦
      if r.options.skipComments then stripComments (textOf ps) else .ok (textOf ps) := by
  have hmentions : mentions "adhoc" (textOf ts) = false := by
    rw [Bool.eq_false_iff]
    exact mt (mentions_iff hl h.dollars).1 hm
  have hsub : ∀ a m, r.substituted a m (textOf ps) = textOf ps := by
    intro a m
    rw [Request.substituted, substitute_free, substitute_free]
    all_goals simpa [substitute_free (undollared_textOf ht)] using undollared_textOf ht
  rw [Request.filtered_eq, hmentions, Bool.or_false, if_neg (by simpa [hcs] using hne), hcs, Request.finish, Aggregation.expand, hq,
    Except.bind, htext, Request.fill_eq, withoutCalls_textOf hps fun t h ↦ not_call_of_undollared (ht t h)]
  simp only [Except.bind, hsub]
  cases r.measures <;> rfl

/-- Either way the predicates are in the text. -/
theorem finish (h : Takes ts q) (hl : Lexed ts) (hq : parse (textOf ts) = .ok q) (hcs : r.conditions q = cs.map textOf)
    (hc : ∀ c ∈ cs, IsCondition Undollared c) (hne : cs ≠ []) : ∃ us, Lexed us ∧ (∀ c ∈ cs, c <:+: us) ∧
      r.finish (r.filtered (textOf ts) q) = r.measures.bind fun _ ↦
        if r.options.skipComments then stripComments (textOf us) else .ok (textOf us) := by
  by_cases hm : adhocToken ∈ ts
  · have hfirst : Aggregation.first? q = none := by
      rcases h.place with ⟨-, h⟩ | h
      · exact h
      · obtain ⟨q', hq'⟩ := h.level.reprints (h.placed hl)
        obtain rfl : q' = q := by
          rw [parse_textOf hl, hq'.parse] at hq
          exact Except.ok.inj hq
        exact first?_of_clausal hq'.clausal
    refine ⟨_, (lexed_withAdhoc (isBlock_conjoined lax_undollared hc hne) hl h.opener).1, fun c hcm ↦ ?_, h.finish_adhoc hl hm hfirst hcs hne⟩
    have hgroup : conjoinedGroup cs <:+: withAdhoc (conjoinedGroup cs) ts := by
      obtain ⟨a, b, rfl⟩ := List.append_of_mem hm
      exact ⟨withAdhoc (conjoinedGroup cs) a, withAdhoc (conjoinedGroup cs) b, by simp [withAdhoc]⟩
    exact ((isInfix_conjoined hcm).trans ⟨[_], [_], rfl⟩).trans hgroup
  · have hd : ∀ t ∈ ts, Undollared t := fun t ht ↦ (h.dollars t ht).resolve_left fun e ↦ hm (e ▸ ht)
    have hregular := h.place.resolve_left fun h ↦ hm h.1
    obtain ⟨ps, htext, hblock, hholds, hfirst⟩ := exists_printed lax_undollared hl hregular h.opener hd hc hne hq
    exact ⟨ps, hblock.lexed, hholds, h.finish_inject hl hm hcs hne htext hblock.lexed hblock.tokens hfirst⟩

end Takes

theorem exists_tokens {xs : List Text} (h : ∀ x ∈ xs, ∃ c, textOf c = x ∧ IsCondition P c) :
    ∃ cs : List (List Token), xs = cs.map textOf ∧ ∀ c ∈ cs, IsCondition P c := by
  induction xs with
  | nil => exact ⟨[], rfl, nofun⟩
  | cons x xs ih =>
    obtain ⟨⟨c, rfl, hc⟩, hxs⟩ := List.forall_mem_cons.1 h
    obtain ⟨cs, rfl, hcs⟩ := ih hxs
    exact ⟨c :: cs, rfl, List.forall_mem_cons.2 ⟨hc, hcs⟩⟩

theorem parse_of_read (h : r.read template = .ok (s, q)) : parse s = .ok q := by
  rw [Request.read] at h
  cases hr : resolveConditionals r.vars template with
  | error => rw [hr] at h; cases h
  | ok u =>
    rw [hr, Except.bind] at h
    cases hp : parse (interpolate r.vars u) with
    | error => rw [hp] at h; cases h
    | ok p =>
      rw [hp] at h
      obtain ⟨rfl, rfl⟩ := Prod.mk.inj (Except.ok.inj h)
      exact hp

theorem ok_of_toOption {α : Type} {x : Except Error α} {a : α} (h : x.toOption = some a) : x = .ok a := by
  cases x with
  | error => cases h
  | ok b => exact congrArg Except.ok (Option.some.inj h)

/-- A query of a table. -/
def plainTokens : List Token := [⟨.clause, "SELECT"⟩, space, ⟨.identifier, "a"⟩, space, ⟨.clause, "FROM"⟩, space, ⟨.identifier, "t"⟩]

def plainQuery : Query := { slots := { select := some ["a"] }, source := some (.table ["t"]) }

/-- A request with a filter on a column of the table. -/
def plainRequest : Request := { range := ⟨⟨1704067200, 0⟩, ⟨1704070800, 0⟩, false⟩, filters := [⟨"a", "=", .text "x"⟩] }

def plainCondition : List Token := [⟨.identifier, "a"⟩, space, ⟨.operator, "="⟩, space, ⟨.string, "'x'"⟩]

theorem plain_spec : Lexed plainTokens ∧ plainRequest.read "SELECT a FROM t" = .ok (textOf plainTokens, plainQuery) ∧
    plainRequest.conditions plainQuery = [plainCondition].map textOf ∧ Regular plainTokens ∧ opensComment plainTokens = false ∧
      ∃ m, plainRequest.measures = .ok m := by
  have hl : Lexed plainTokens := by decide
  have hparse : parse (textOf plainTokens) = .ok plainQuery := by
    rw [parse_textOf hl]
    exact ok_of_toOption (by decide +kernel)
  have hcond : resolveConditionals [] (textOf plainTokens) = .ok (textOf plainTokens) :=
    resolveConditionals_of_findCall (findCall_eq_none hl (by decide))
  have hread : plainRequest.read "SELECT a FROM t" = .ok (textOf plainTokens, plainQuery) := by
    have hinter : interpolate [] (textOf plainTokens) = textOf plainTokens := by decide +kernel
    have hvars : plainRequest.vars = [] := rfl
    rw [Request.read, hvars, show "SELECT a FROM t".toList = textOf plainTokens by decide, hcond, Except.bind, hinter, hparse]
    rfl
  refine ⟨hl, hread, by decide +kernel, ⟨by decide, by decide, by decide, ⟨by decide +kernel, ?_⟩⟩, by decide, ?_⟩
  · have : subLevels plainTokens = [] := by decide +kernel
    simp [this]
  · have : plainRequest.measures.toOption.isSome = true := by decide +kernel
    obtain ⟨m, hm⟩ := Option.isSome_iff_exists.1 this
    exact ⟨m, ok_of_toOption hm⟩

theorem isCondition_plain (hP : Lax P) : IsCondition P plainCondition :=
  ⟨⟨fun t ht ↦ hP t ((by decide : ∀ t ∈ plainCondition, '$' ∉ t.text) t ht), by decide, by decide, by decide, by decide, by decide, by decide⟩,
    by decide⟩

theorem finish_of_compile (hread : r.read template = .ok (s, q)) (hout : r.compile template = .ok out) :
    r.finish (r.filtered s q) = .ok out := by
  rwa [Request.compile_eq, hread] at hout

/-- Every predicate of the filters that apply is in the code that a query is compiled to. -/
theorem conditions_reach (hread : r.read template = .ok (s, q)) (hs : tokens? s = .ok ts) (ht : Takes ts q)
    (hne : r.conditions q ≠ []) (hx : ∀ x ∈ r.conditions q, ∃ c, textOf c = x ∧ IsCondition Undollared c)
    (hskip : r.options.skipComments = false) (hout : r.compile template = .ok out) :
    ∃ us, tokens? out = .ok us ∧ ∀ x ∈ r.conditions q, ∃ c, tokens? x = .ok c ∧ codeOf c <:+: codeOf us := by
  obtain ⟨rfl, hl⟩ := tokens?_eq_ok_iff.1 hs
  obtain ⟨cs, hcs, hc⟩ := exists_tokens hx
  obtain ⟨us, hus, hholds, hfinish⟩ := ht.finish hl (parse_of_read hread) hcs hc (by simpa [hcs] using hne)
  rw [finish_of_compile hread hout, hskip] at hfinish
  have htext : textOf us = out := by
    cases hm : r.measures with
    | error =>
      rw [hm] at hfinish
      cases hfinish
    | ok m =>
      rw [hm] at hfinish
      exact (Except.ok.inj hfinish).symm
  refine ⟨us, tokens?_eq_ok_iff.2 ⟨htext, hus⟩, fun x hxm ↦ ?_⟩
  rw [hcs] at hxm
  obtain ⟨c, hcm, rfl⟩ := List.mem_map.1 hxm
  exact ⟨c, tokens?_eq_ok_iff.2 ⟨rfl, (hc c hcm).lexed⟩, (hholds c hcm).filter _⟩

theorem condition_reaches_where : ∃ out us, plainRequest.compile "SELECT a FROM t" = .ok out ∧ tokens? out = .ok us ∧
    codeOf plainCondition <:+: codeOf us := by
  obtain ⟨hl, hread, hcs, hr, ho, m, hm⟩ := plain_spec
  have ht : Takes plainTokens plainQuery := ⟨ho, by unfold OnlyAdhoc; decide, .inr hr⟩
  have hc : ∀ c ∈ [plainCondition], IsCondition Undollared c := by simpa using isCondition_plain lax_undollared
  obtain ⟨us, -, -, hfinish⟩ := ht.finish hl (parse_of_read hread) hcs hc (by simp)
  have hout : plainRequest.compile "SELECT a FROM t" = .ok (textOf us) := by
    rw [Request.compile_eq, hread, Except.bind, hfinish, hm]
    rfl
  have hx : ∀ x ∈ plainRequest.conditions plainQuery, ∃ c, textOf c = x ∧ IsCondition Undollared c := by
    rw [hcs]
    exact List.forall_mem_map.2 fun c h ↦ ⟨c, rfl, hc c h⟩
  obtain ⟨vs, hvs, hholds⟩ := conditions_reach hread (tokens?_eq_ok_iff.2 ⟨rfl, hl⟩) ht (by simp [hcs]) hx rfl hout
  obtain ⟨c, hcx, hinfix⟩ := hholds (textOf plainCondition) (by simp [hcs])
  obtain rfl : plainCondition = c := Except.ok.inj ((tokens?_eq_ok_iff.2 ⟨rfl, (hc _ List.mem_cons_self).lexed⟩).symm.trans hcx)
  exact ⟨_, vs, hout, hvs, hinfix⟩

namespace Request

/-- What a compilation comes down to. -/
theorem finish_eq_ok_iff {f : Filtered} : r.finish f = .ok out ↔ ∃ u v m, Aggregation.expand r.options.mode f.text f.query = .ok u ∧
    withoutCalls u = .ok v ∧ r.measures = .ok m ∧
      (if r.options.skipComments then stripComments (r.substituted f.adhoc m v) else .ok (r.substituted f.adhoc m v)) = .ok out := by
  rw [finish]
  cases Aggregation.expand r.options.mode f.text f.query with
  | error => simp [Except.bind]
  | ok u =>
    rw [Except.bind, fill_eq]
    cases hu : withoutCalls u with
    | error => simp [Except.bind, hu]
    | ok v =>
      cases r.measures with
      | error => simp [Except.bind, Except.map]
      | ok m => simp [Except.bind, Except.map, hu]

end Request

/-- A token that is left as it is, or that stands for a value if comments are kept. -/
def Harmless (r : Request) (t : Token) : Prop := t.text ∉ callNames ∧ (r.options.skipComments = true → Undollared t)

theorem lax_harmless (r : Request) : Lax (Harmless r) := fun _ h ↦ ⟨not_call_of_undollared h, fun _ ↦ h⟩

/-- The filters of a request can be put into the query of a text. -/
inductive Bears (r : Request) (s : Text) (q : Query) : Prop
  | none (h : r.conditions q = [])
  | asked (hm : mentions "adhoc" s = true) (hskip : r.options.skipComments = false)
  | placed {ts : List Token} (hs : tokens? s = .ok ts) (hr : Regular ts) (ho : opensComment ts = false) (ht : ∀ t ∈ ts, Harmless r t)
    (hx : ∀ x ∈ r.conditions q, ∃ c, textOf c = x ∧ IsCondition (Harmless r) c)

/-- A text without macros whose tokens are harmless is compiled if there are measures. -/
theorem exists_finish {ps : List Token} {m : Measures} (hl : Lexed ps) (ht : ∀ t ∈ ps, Harmless r t) (hq : Aggregation.first? q = none)
    (hm : r.measures = .ok m) (adhoc : Text) : ∃ out, r.finish ⟨textOf ps, q, adhoc⟩ = .ok out := by
  have hcalls := withoutCalls_textOf hl fun t h ↦ (ht t h).1
  have hexpand : Aggregation.expand r.options.mode (textOf ps) q = .ok (textOf ps) := by rw [Aggregation.expand, hq]
  simp only [Request.finish_eq_ok_iff]
  cases hskip : r.options.skipComments with
  | false => exact ⟨_, _, _, m, hexpand, hcalls, hm, rfl⟩
  | true =>
    have hfree := undollared_textOf fun t h ↦ (ht t h).2 hskip
    refine ⟨textOf (ps.filter (·.kind ≠ .comment)), _, _, m, hexpand, hcalls, hm, ?_⟩
    rw [if_pos rfl, Request.substituted_free hfree, stripComments, tokens?_eq_ok_iff.2 ⟨rfl, hl⟩]
    rfl

/-- A query that is compiled without filters is compiled with them. -/
theorem compile_with_filters (hread : r.read template = .ok (s, q)) (ok_of_toOption : Request.compile { r with filters := [] } template = .ok out)
    (h : Bears r s q) : ∃ out', r.compile template = .ok out' := by
  have hfinish := finish_of_compile (r := { r with filters := [] }) hread ok_of_toOption
  obtain ⟨u, v, m, hu, hv, hm, -⟩ := Request.finish_eq_ok_iff.1 hfinish
  have hm : r.measures = .ok m := hm
  have hnone : r.conditions q = [] → ∃ out', r.finish (r.filtered s q) = .ok out' := by
    intro h
    rw [Request.filtered_eq, h]
    exact ⟨_, hfinish⟩
  have hasked : mentions "adhoc" s = true → r.options.skipComments = false → ∃ out', r.finish (r.filtered s q) = .ok out' := by
    intro hmentions hskip
    rw [Request.filtered_eq, hmentions, Bool.or_true, if_pos rfl]
    exact ⟨_, Request.finish_eq_ok_iff.2 ⟨u, v, m, hu, hv, hm, by simp only [hskip]; rfl⟩⟩
  rw [Request.compile_eq, hread, Except.bind]
  cases h with
  | none h => exact hnone h
  | asked hm hskip => exact hasked hm hskip
  | @placed ts hs hr ho ht hx =>
    obtain ⟨rfl, hl⟩ := tokens?_eq_ok_iff.1 hs
    obtain ⟨cs, hcs, hc⟩ := exists_tokens hx
    by_cases hne : cs = []
    · exact hnone (by rw [hcs, hne]; rfl)
    cases hmentions : mentions "adhoc" (textOf ts) with
    | true =>
      refine hasked hmentions ?_
      rw [Bool.eq_false_iff]
      intro hskip
      have := mentions_append (w := "adhoc") (undollared_textOf fun t h ↦ (ht t h).2 hskip) []
      rw [List.append_nil, hmentions] at this
      cases this
    | false =>
      obtain ⟨ps, htext, hblock, -, hfirst⟩ := exists_printed (lax_harmless r) hl hr ho ht hc hne (parse_of_read hread)
      rw [Request.filtered_eq, hmentions, Bool.or_false, if_neg (by simpa [hcs] using hne), hcs, htext]
      exact exists_finish hblock.lexed hblock.tokens hfirst hm _

theorem compile_with_filter_on_column : (∃ out, Request.compile { plainRequest with filters := [] } "SELECT a FROM t" = .ok out) ∧
    Bears plainRequest (textOf plainTokens) plainQuery ∧ ∃ out, plainRequest.compile "SELECT a FROM t" = .ok out := by
  obtain ⟨hl, hread, hcs, hr, ho, m, hm⟩ := plain_spec
  have hd : ∀ t ∈ plainTokens, Undollared t := by decide
  have ht : ∀ t ∈ plainTokens, Harmless plainRequest t := fun t h ↦ lax_harmless _ t (hd t h)
  have hb : Bears plainRequest (textOf plainTokens) plainQuery :=
    .placed (tokens?_eq_ok_iff.2 ⟨rfl, hl⟩) hr ho ht (by simpa [hcs] using ⟨_, rfl, isCondition_plain (lax_harmless _)⟩)
  obtain ⟨out, hout⟩ : ∃ out, Request.compile { plainRequest with filters := [] } "SELECT a FROM t" = .ok out := by
    obtain ⟨out, hout⟩ := exists_finish (r := { plainRequest with filters := [] }) (q := plainQuery) hl
      (fun t h ↦ lax_harmless _ t (hd t h)) rfl hm (Filter.render [])
    refine ⟨out, ?_⟩
    rw [Request.compile_eq, show Request.read { plainRequest with filters := [] } _ = _ from hread]
    exact hout
  exact ⟨⟨out, hout⟩, hb, compile_with_filters hread hout hb⟩

end QueryTemplate
