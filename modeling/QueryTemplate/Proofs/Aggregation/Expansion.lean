import QueryTemplate.Aggregation.Expand
import QueryTemplate.Proofs.Aggregation.Tail
import QueryTemplate.Proofs.Filter.Inject
import QueryTemplate.Proofs.Query.TableName
namespace QueryTemplate

open Token Grammar Fragment

namespace Aggregation

variable {t : Token} {ts us fs gs name cond : List Token} {q : Query}

/-- The tokens of a name as it is read alone. -/
def nameToken (s : Text) : Token := ⟨.identifier, s⟩

def openParen : Token := ⟨.opening, ['(']⟩

def closeParen : Token := ⟨.closing, [')']⟩

/-- The tokens of the only column, the change of the first greatest value. -/
def changeTokens : Mode → List Token
  | .running => [nameToken "runningDifference", openParen, nameToken "max_0", closeParen]
  | .window => [openParen, nameToken "max_0", space, ⟨.operator, ['-']⟩, space, nameToken "lagInFrame", openParen,
      nameToken "max_0", comma, space, ⟨.number, ['1']⟩, comma, space, nameToken "max_0", closeParen, space,
      nameToken "OVER", space, openParen, closeParen, closeParen]

/-- What the outer select of an expansion has. -/
def outerTokens (m : Mode) : List Token :=
  [space, nameToken "t", comma, space] ++ changeTokens m ++ [space, nameToken "AS", space, nameToken "max_0_Delta", space]

/-- What the select over the source has. -/
def innerTokens : List Token :=
  [space, ⟨.placeholder, "$timeSeries"⟩, space, nameToken "AS", space, nameToken "t", comma, space, nameToken "max",
    openParen, nameToken "a", closeParen, space, nameToken "AS", space, nameToken "max_0"]

def timeFilterToken : Token := ⟨.placeholder, "$timeFilter"⟩

/-- The statement over a source: the tokens from `FROM` on, and those behind the time filter. -/
def innerStatement (from_ tail : List Token) : List Token :=
  ⟨.clause, "SELECT"⟩ :: (innerTokens ++ space :: (from_ ++ added timeFilterToken tail))

def expansion (m : Mode) (from_ tail : List Token) : List Token :=
  ⟨.clause, "SELECT"⟩ :: (outerTokens m ++ ⟨.clause, "FROM"⟩ :: space :: openParen ::
    (innerStatement from_ tail ++ [closeParen]))

/-- Tokens after a space that are no continuation of a phrase. -/
theorem lexed_append_space (hl : Lexed us) (hlast : ∀ t ∈ us.getLast?, t.kind ≠ .blank ∧ t.kind ≠ .comment)
    (hc : opensComment us = false) (h : Lexed (space :: ts)) (hw : ahead ts = []) : Lexed (us ++ space :: ts) := by
  refine hl.append h (sealed_blank rfl _) ?_ hlast (slashFree_append hc h.slashFree (by simp [space]))
  rwa [tokenWords_blank rfl]

/-- What an expansion has before its source, behind it and at its end is read as in the parts. -/
theorem lexed_expansion (m : Mode) (hf : Lexed (⟨.clause, "FROM"⟩ :: fs))
    (hlast : ∀ t ∈ (⟨.clause, "FROM"⟩ :: fs).getLast?, t.kind ≠ .blank ∧ t.kind ≠ .comment)
    (hc : opensComment (⟨.clause, "FROM"⟩ :: fs) = false) (ht : Lexed (space :: (ts ++ [closeParen]))) :
    Lexed (expansion m (⟨.clause, "FROM"⟩ :: fs) (space :: ts)) := by
  have hfilter : Lexed (added timeFilterToken (space :: (ts ++ [closeParen]))) :=
    lexed_added ht isFilter_timeFilter (sealed_blank rfl _)
  have hsource : Lexed (⟨.clause, "FROM"⟩ :: fs ++ added timeFilterToken (space :: (ts ++ [closeParen]))) :=
    lexed_append_space hf hlast hc hfilter (hfilter.tail.ahead_clause rfl)
  have hopening : Lexed (⟨.clause, "SELECT"⟩ :: (outerTokens m ++ ⟨.clause, "FROM"⟩ :: space :: openParen ::
      ⟨.clause, "SELECT"⟩ :: innerTokens)) := by
    cases m <;> decide +kernel
  have h := lexed_append_space hopening (by cases m <;> decide) (by cases m <;> decide)
    (hsource.space_cons (by simp [Token.isBlank])) (hsource.ahead_clause rfl)
  simpa [expansion, innerStatement, added] using h

theorem outerTokens_select (m : Mode) : Balanced (outerTokens m) ∧ Covered (·.opens [.slot .select]) 0 (outerTokens m) := by
  cases m <;> exact ⟨by decide, by decide⟩

theorem isOrdinary_expansion {m : Mode} (hf : ∀ t ∈ fs, t.isFlat = true) (ht : ∀ t ∈ ts, t.isFlat = true) :
    ∀ t ∈ expansion m fs ts, t.isOrdinary = true := by
  have hhead : ∀ t ∈ (⟨.clause, "SELECT"⟩ :: (outerTokens m ++ ⟨.clause, "FROM"⟩ :: space :: openParen ::
      ⟨.clause, "SELECT"⟩ :: (innerTokens ++ [space])) : List Token), t.isOrdinary = true := by
    cases m <;> decide
  have hrest : ∀ t ∈ fs ++ added timeFilterToken (ts ++ [closeParen]), t.isOrdinary = true := by
    refine List.forall_mem_append.2 ⟨fun t h ↦ isOrdinary_of_flat (hf t h), ?_⟩
    simp only [added, List.forall_mem_cons, List.forall_mem_append]
    exact ⟨by decide, by decide, by decide, by decide, fun t h ↦ isOrdinary_of_flat (ht t h), by decide, by decide⟩
  have := List.forall_mem_append.2 ⟨hhead, hrest⟩
  simpa [expansion, innerStatement, added] using this

/-- The statement over the start of a table name reads from it. -/
theorem parse_innerStatement (h : TableName name) (hl : ∀ t ∈ name, Lexed [t]) (hp : fs <+: name)
    (hg : ∀ t ∈ gs, t.isBlank = true) (ho : Ordinary (innerStatement (⟨.clause, "FROM"⟩ :: (gs ++ fs)) ts))
    (ht : ∀ t ∈ ts, t.isFlat = true) :
    ∃ q, parseTokens [] (innerStatement (⟨.clause, "FROM"⟩ :: (gs ++ fs)) ts) {} = .ok q ∧
      q.source = some (.table (tablesOf fs)) := by
  have hsub : ∀ {us : List Token}, us ⊆ innerStatement (⟨.clause, "FROM"⟩ :: (gs ++ fs)) ts → Ordinary us :=
    fun hus t ht ↦ ho t (hus ht)
  obtain ⟨d₁, q₁, h₁, hd₁, hs₁⟩ := parse_select (innerTokens ++ [space])
    (⟨.clause, "FROM"⟩ :: (gs ++ fs) ++ added timeFilterToken ts)
    (hsub (by intro t ht; simp [innerStatement] at ht ⊢; tauto)) (by decide) (by decide)
  obtain ⟨d₂, h₂, hd₂⟩ := h.parse_source hl hp hg hd₁ (hs₁ .source (by decide)) (added timeFilterToken ts)
  obtain ⟨q, hq, hsource, -⟩ := hd₂.parse_where (space :: timeFilterToken :: ts)
    (Query.has_assign_of_seen rfl hs₁ _)
    (hsub (by intro t ht; simp [innerStatement, added] at ht ⊢; tauto)) (depthRun_of_flat ht 0)
  refine ⟨q, ?_, hsource⟩
  rw [innerStatement, List.append_cons innerTokens, h₁, List.cons_append, h₂, added, parse_blank rfl]
  exact hq

/-- The expansion reads from the start of a table name that is left in it. -/
theorem parse_expansion (m : Mode) (h : TableName name) (hl : ∀ t ∈ name, Lexed [t]) (hp : fs <+: name)
    (hg : ∀ t ∈ gs, t.isBlank = true) (he : Lexed (expansion m (⟨.clause, "FROM"⟩ :: (gs ++ fs)) ts))
    (ht : ∀ t ∈ ts, t.isFlat = true) :
    ∃ q, parse (textOf (expansion m (⟨.clause, "FROM"⟩ :: (gs ++ fs)) ts)) = .ok q ∧
      q.innermost.source = some (.table (tablesOf fs)) := by
  have hfrom : ∀ t ∈ (⟨.clause, "FROM"⟩ :: (gs ++ fs) : List Token), t.isFlat = true := by
    refine List.forall_mem_cons.2 ⟨by decide, List.forall_mem_append.2
      ⟨fun t ht ↦ ?_, fun t ht ↦ h.flat t (hp.subset ht)⟩⟩
    have hk : t.kind = .blank := by simpa [Token.isBlank] using hg t ht
    simp [isFlat, isOrdinary, isUnionAll, isClause, hk]
  have hsub : ∀ {us : List Token}, us ⊆ expansion m (⟨.clause, "FROM"⟩ :: (gs ++ fs)) ts → Ordinary us :=
    fun hus t ht' ↦ ⟨he.lexical t (hus ht'), isOrdinary_expansion hfrom ht t (hus ht')⟩
  obtain ⟨r, hr, hsource⟩ := parse_innerStatement h hl hp hg (hsub fun t hm ↦ by
    simp only [expansion, List.mem_cons, List.mem_append, hm, true_or, or_true]) ht
  have hbal : Balanced (innerStatement (⟨.clause, "FROM"⟩ :: (gs ++ fs)) ts) := by
    rw [innerStatement, Balanced, List.append_cons, ← List.cons_append, depthRun_append,
      show depthRun 0 (⟨.clause, "SELECT"⟩ :: (innerTokens ++ [space])) = some 0 by decide, Option.bind_some,
      depthRun_append, depthRun_of_flat hfrom]
    exact depthRun_of_flat ht 0
  obtain ⟨hbo, hco⟩ := outerTokens_select m
  obtain ⟨d, q, hq, hd, hs⟩ := parse_select (outerTokens m)
    (⟨.clause, "FROM"⟩ :: space :: openParen :: (innerStatement (⟨.clause, "FROM"⟩ :: (gs ++ fs)) ts ++ [closeParen]))
    (hsub (by intro t ht; simp [expansion, ht])) hbo hco
  have hself : r.innermost = r := Query.innermost_eq_self fun x hx ↦ by
    rw [hsource] at hx
    cases hx
  refine ⟨{ q with source := some (.subquery r) }, ?_, (congrArg Query.source hself).trans hsource⟩
  rw [parse_textOf he, expansion, hq, hd.parse_heading rfl (c := .source) (by decide) rfl (hs .source (by decide)),
    parse_blank rfl, parse_subquery rfl rfl rfl rfl rfl hbal hr, parseTokens_nil]
  rfl

/-- The tokens of a condition of words, literals and signs, none of which reads `SETTINGS`. -/
structure Condition (ts : List Token) : Prop where
  kinds : ∀ t ∈ ts, t.kind ∈ [Kind.identifier, .string, .number, .operator, .conjunction, .blank]
  division : ∀ t ∈ ts, t.text ≠ ['/']
  settings : ∀ t ∈ ts, t.keyword ≠ "settings"
  head : ∃ t ∈ ts.head?, t.isBlank = false
  last : ∃ t ∈ ts.getLast?, t.isBlank = false

theorem Condition.flat (h : Condition ts) : ∀ t ∈ ts, t.isFlat = true := by
  intro t ht
  have hk := h.kinds t ht
  simp only [List.mem_cons, List.not_mem_nil, or_false] at hk
  rcases hk with hk | hk | hk | hk | hk | hk <;> simp [isFlat, isOrdinary, isUnionAll, isClause, hk]

/-- What may stand behind the table of a query. -/
inductive Narrowing : List Token → Prop
  | nothing : Narrowing []
  | condition {ts : List Token} (h : Condition ts) : Narrowing (space :: ⟨.clause, "WHERE"⟩ :: space :: ts)

/-- The tokens of `$delta(a) FROM` a table. -/
def deltaQuery (name cond : List Token) : List Token :=
  ⟨.aggregation, "$delta"⟩ :: openParen :: nameToken "a" :: closeParen :: space :: ⟨.clause, "FROM"⟩ :: space ::
    (name ++ cond)

/-- The text from `FROM` on. -/
def sourceTokens (name cond : List Token) : List Token := ⟨.clause, "FROM"⟩ :: space :: (name ++ cond)

theorem lexed_sourceTokens (hl : Lexed (deltaQuery name cond)) : Lexed (sourceTokens name cond) :=
  hl.tail.tail.tail.tail.tail

theorem Narrowing.flat (h : Narrowing cond) : ∀ t ∈ cond, t.isFlat = true := by
  cases h with
  | nothing => nofun
  | condition h =>
    simp only [List.forall_mem_cons]
    exact ⟨by decide, by decide, by decide, h.flat⟩

theorem Narrowing.ahead (h : Narrowing cond) : ahead cond = [] := by
  cases h with
  | nothing => rfl
  | condition h =>
    have hwhere : Lexed [⟨.clause, "WHERE"⟩] := by decide
    exact (ahead_blank rfl _).trans (hwhere.ahead_clause rfl)

theorem lexed_parts (h : TableName name) (hc : Narrowing cond) (hl : Lexed (deltaQuery name cond)) :
    ∀ t ∈ name, Lexed [t] := h.alone hc.ahead (lexed_sourceTokens hl).tail.tail

/-- What the query of a table knows of its macro. -/
def deltaCalls : List (Text × CallArgs Query) := [("$delta".toList, .list ["a".toList])]

theorem parse_argument : parseTokens [] [nameToken "a"] {} = .ok { root := ["a"] } := by
  have hstep : Draft.step [] {} (nameToken "a") [] = .ok (Draft.pushToken (nameToken "a") {}, []) := rfl
  rw [parseTokens_step hstep, parseTokens_nil]
  rfl

/-- The call makes a query without a clause but its own. -/
theorem parse_deltaCall (ts : List Token) :
    parseTokens [] (⟨.aggregation, "$delta"⟩ :: openParen :: nameToken "a" :: closeParen :: ts) {} =
      parseTokens [] ts { query := { calls := deltaCalls, slots := { select := some [] } } } := by
  refine parseTokens_step ?_
  have hgroup : callGroup "$delta" [] (openParen :: nameToken "a" :: closeParen :: ts) = .ok ([nameToken "a"], ts) := rfl
  have hlist : CallArgs.ofQuery { root := ["a"] } = .list ["a"] := by
    simp [CallArgs.ofQuery, Query.isBareRoot]
  rw [Draft.step, show Draft.action {} ⟨.aggregation, "$delta"⟩ = .readCall from rfl]
  simp only [hgroup, Except.bind, parse_argument, Except.map]
  rw [hlist]
  rfl

theorem parse_deltaQuery (h : TableName name) (hc : Narrowing cond) (hl : Lexed (deltaQuery name cond)) :
    ∃ q, parse (textOf (deltaQuery name cond)) = .ok q ∧ q.source = some (.table [textOf name]) ∧
      q.calls = deltaCalls := by
  let q₀ : Query := { calls := deltaCalls, slots := { select := some [] } }
  have hseen : ∀ e ∈ Clause.keywordClauses, q₀.has e = [Clause.slot .select].contains e := by decide
  have hends : Draft.Ends { query := q₀ } q₀ := ⟨rfl, rfl, fun _ _ ↦ rfl⟩
  have hsource : (q₀.assign (tablesOf name) .source).source = some (.table [textOf name]) := by
    rw [tablesOf, if_neg h.ne_nil]
    rfl
  have hname := lexed_parts h hc hl
  have hspace : ∀ t ∈ [space], t.isBlank = true := by decide
  obtain ⟨d, hd, hend⟩ := h.parse_source hname (List.prefix_refl name) hspace hends rfl cond
  rw [parse_textOf hl, deltaQuery, parse_deltaCall, parse_blank rfl]
  cases hc with
  | nothing =>
    refine ⟨q₀.assign (tablesOf name) .source, hd.trans ?_, hsource, rfl⟩
    rw [parseTokens_nil, hend.query]
    rfl
  | @condition ts hc =>
    have hlast : Lexed (space :: ts) :=
      Lexed.suffix (a := deltaQuery name [space, ⟨.clause, "WHERE"⟩]) (by simpa [deltaQuery] using hl)
    have hflat : ∀ t ∈ space :: ts, t.isFlat = true := List.forall_mem_cons.2 ⟨by decide, hc.flat⟩
    obtain ⟨q, hq, hqs, hcalls⟩ := hend.parse_where (space :: ts) (Query.has_assign_of_seen rfl hseen _)
      (hlast.ordinary_of_flat hflat) (depthRun_of_flat hflat 0)
    exact ⟨q, hd.trans ((parse_blank rfl).trans hq), hqs.trans hsource, hcalls⟩

theorem first?_of_calls (hq : q.calls = deltaCalls) : first? q = some (.plain .delta) := by
  have hhas : ∀ m : Aggregation, q.has (.call m.name) = (deltaCalls.lookup m.name).isSome := by
    intro m
    rw [Query.has, Query.lookupCall, hq]
  rw [first?, show (fun m : Aggregation ↦ q.has (.call m.name)) = fun m ↦ (deltaCalls.lookup m.name).isSome from
    funext hhas]
  decide

theorem locate_deltaQuery (hl : Lexed (deltaQuery name cond)) :
    locate (textOf (deltaQuery name cond)) "$delta" =
      .ok ⟨[], ['a'], Text.trim (textOf (sourceTokens name cond))⟩ := by
  have hgroup : callGroup "$delta" [] (openParen :: nameToken "a" :: closeParen :: space :: sourceTokens name cond) =
      .ok ([nameToken "a"], space :: sourceTokens name cond) := rfl
  have hcut : cutOutside (isClause "from") (space :: sourceTokens name cond) =
      some ([space], ⟨.clause, "FROM"⟩, space :: (name ++ cond)) :=
    cutOutside_eq_some_iff.2 ⟨rfl, by decide, by decide, by decide⟩
  let other : Token → Bool := fun t ↦ !(t.kind = .aggregation && t.text = "$delta")
  have hdrop : (deltaQuery name cond).dropWhile other = deltaQuery name cond := rfl
  have htake : (deltaQuery name cond).takeWhile other = [] := rfl
  have hscan : scan (textOf (deltaQuery name cond)) = ⟨deltaQuery name cond, []⟩ := hl
  simp only [locate, hscan, other] at hdrop htake ⊢
  rw [hdrop, htake, deltaQuery]
  simp only [← sourceTokens.eq_def, hgroup, Except.bind, atEnd, hcut]
  rfl

/-- The clauses that are put behind a source. -/
def bucketTokens : List Token :=
  [⟨.clause, "GROUP BY"⟩, space, nameToken "t", space, ⟨.clause, "ORDER BY"⟩, space, nameToken "t"]

theorem textOf_expansion (m : Mode) (from_ ts : List Token) : textOf (expansion m from_ ts) =
    "SELECT t, " ++ (m.counter "max_0" .delta none ++ " AS max_0_Delta") ++
      " FROM (SELECT $timeSeries AS t, max(a) AS max_0 " ++ textOf (from_ ++ added timeFilterToken ts) ++ ")" := by
  have hhead : textOf (⟨.clause, "SELECT"⟩ :: (outerTokens m ++ ⟨.clause, "FROM"⟩ :: space :: openParen ::
      ⟨.clause, "SELECT"⟩ :: (innerTokens ++ [space]))) =
      "SELECT t, " ++ (m.counter "max_0" .delta none ++ " AS max_0_Delta") ++
        " FROM (SELECT $timeSeries AS t, max(a) AS max_0 " := by
    cases m <;> rfl
  rw [← hhead]
  simp [expansion, innerStatement, closeParen]

/-- A filter brings no comment. -/
theorem withFilter_code {p : Token} (hp : IsFilter p) (hc : ∀ t ∈ ts, t.kind ≠ .comment) :
    ∀ t ∈ withFilter p ts, t.kind ≠ .comment := by
  have hadded : ∀ {a b : List Token}, (∀ t ∈ a, t.kind ≠ .comment) → (∀ t ∈ b, t.kind ≠ .comment) →
      ∀ t ∈ trimmed a ++ added p b, t.kind ≠ .comment := by
    intro a b ha hb
    refine List.forall_mem_append.2 ⟨fun t ht ↦ ha t (mem_of_mem_trimmed ht), ?_⟩
    simpa [added, space, whereWord, hp.kind] using hb
  rcases withFilter_cases p ts with ⟨a, w, b, hcut, e⟩ | ⟨-, ⟨a, t, b, hcut, e⟩ | ⟨-, e⟩⟩
  · obtain ⟨rfl, -⟩ := cutOutside_eq_some_iff.1 hcut
    rw [e]
    simpa [guarded, withSpace, hp.isBlank, hp.kind, space, Token.and, or_imp, forall_and] using hc
  · obtain ⟨rfl, -⟩ := cutOutside_eq_some_iff.1 hcut
    obtain ⟨ha, hb⟩ := List.forall_mem_append.1 hc
    rw [e]
    exact hadded ha (List.forall_mem_cons.2 ⟨by simp [space], hb⟩)
  · rw [e]
    exact hadded hc fun t ht ↦ hc t ((List.rtakeWhile_suffix _ ts).mem ht)

theorem counters_delta (m : Mode) (p : Parts) : counters m p .delta [['a']] =
    "SELECT t, " ++ (m.counter "max_0" .delta none ++ " AS max_0_Delta") ++
      " FROM (SELECT $timeSeries AS t, max(a) AS max_0 " ++ p.sourceWithTail "t" "t" ++ ")" := by
  cases m <;> rfl

/-- The steps to the statement that a query stands for. -/
theorem expand_eq (m : Mode) (hq : q.calls = deltaCalls) (hl : Lexed (deltaQuery name cond)) :
    expand m (textOf (deltaQuery name cond)) q =
      (Tail.split (Text.trim (textOf (sourceTokens name cond)))).bind fun (body, tail) ↦
        (injectTimeFilter body "$timeFilter").map fun source ↦
          counters m ⟨"$delta", source, tail⟩ .delta [['a']] ++ Tail.clause "FORMAT" tail.format := by
  have hargs : argumentsIn q (.plain .delta) ['a'] = .ok [['a']] := by
    rw [argumentsIn, Query.lookupCall, hq]
    rfl
  have hname : Aggregation.name (.plain .delta) = "$delta" := rfl
  have hshape : Aggregation.shape (.plain .delta) [['a']] = .ok (.plain .delta [['a']]) := rfl
  have htime : Aggregation.timeFilter (.plain .delta) = "$timeFilter" := rfl
  simp only [expand, first?_of_calls hq, expandMacro, hname, locate_deltaQuery hl, bind, Except.bind, hargs, hshape]
  cases Tail.split (Text.trim (textOf (sourceTokens name cond))) with
  | error e => rfl
  | ok x =>
    simp only [htime]
    cases injectTimeFilter x.1 "$timeFilter" with
    | error e => rfl
    | ok source => rfl

theorem openingSource?_of_flat (h : ∀ t ∈ ts, t.isFlat = true) : openingSource? (⟨.clause, "FROM"⟩ :: ts) = none := by
  have hdrop : (⟨.clause, "FROM"⟩ :: ts : List Token).dropWhile isBlank = ⟨.clause, "FROM"⟩ :: ts := rfl
  simp only [openingSource?, hdrop]
  split
  · rfl
  · rename_i o inner e
    have ho : o.isFlat = true := h o ((List.dropWhile_suffix isBlank).subset (e ▸ List.mem_cons_self))
    simp only [isFlat, Bool.and_eq_true, decide_eq_true_eq] at ho
    rw [if_neg (by simp [isOpenParen, ho])]

/-- The statement that a query stands for, by what its source is cut into. -/
theorem expand_deltaQuery (m : Mode) {bs from_ ws : List Token} (ss : List Token) {o : Option Text} (hq : q.calls = deltaCalls)
    (hl : Lexed (deltaQuery name cond)) (hb : Lexed (⟨.clause, "FROM"⟩ :: bs)) (hbs : ∀ t ∈ bs, t.isFlat = true)
    (hsplit : Tail.split (Text.trim (textOf (sourceTokens name cond))) =
      .ok (textOf (⟨.clause, "FROM"⟩ :: bs), { settings := o })) (hs : textOf ss = Tail.clause "SETTINGS" o)
    (hfilter : trimmed (withFilter timeFilterToken (⟨.clause, "FROM"⟩ :: bs)) = from_ ++ added timeFilterToken ws) :
    expand m (textOf (deltaQuery name cond)) q =
      .ok (textOf (expansion m from_ (ws ++ space :: (bucketTokens ++ ss)))) := by
  have hp : IsFilter timeFilterToken := isFilter_timeFilter
  have hc : ∀ t ∈ (⟨.clause, "FROM"⟩ :: bs : List Token), t.kind ≠ .comment :=
    List.forall_mem_cons.2 ⟨by decide, fun t ht ↦ code_of_flat (hbs t ht)⟩
  have hinject : injectTimeFilter (textOf (⟨.clause, "FROM"⟩ :: bs)) "$timeFilter" =
      .ok (textOf (withFilter timeFilterToken (⟨.clause, "FROM"⟩ :: bs))) := by
    rw [injectTimeFilter, tokens?_eq_ok_iff.2 ⟨rfl, hb⟩]
    simp only [Except.bind, openingSource?_of_flat hbs]
    exact congrArg Except.ok (filterTokens_eq hb hc timeFilterToken)
  have hattach : ∀ x, attach (textOf (withFilter timeFilterToken (⟨.clause, "FROM"⟩ :: bs))) x =
      textOf (from_ ++ added timeFilterToken ws) ++ ' ' :: x := by
    intro x
    rw [attach_of_lexed (lexed_withFilter hb hc hp) (withFilter_code hp hc), hfilter]
  have hbucket : Tail.render "t" "t" { settings := o } = textOf bucketTokens ++ Tail.clause "SETTINGS" o := rfl
  rw [expand_eq m hq hl, hsplit]
  simp only [Except.bind, hinject, Except.map]
  rw [textOf_expansion, counters_delta, Parts.sourceWithTail, hattach, hbucket, ← hs]
  simp [Tail.clause, added, space]

/-- A source without a condition gets one. -/
theorem trimmed_withFilter (h : ∀ t ∈ ts, t.kind ≠ .clause) :
    trimmed (withFilter timeFilterToken (⟨.clause, "FROM"⟩ :: ts)) =
      trimmed (⟨.clause, "FROM"⟩ :: ts) ++ added timeFilterToken [] := by
  have hcov : ∀ p : Token → Bool, (∀ t, p t = true → t.kind = .clause) → p ⟨.clause, "FROM"⟩ = false →
      Covered p 0 (⟨.clause, "FROM"⟩ :: ts) := by
    intro p hp hf
    refine covered_of_forall (List.forall_mem_cons.2 ⟨hf, fun t ht ↦ Bool.eq_false_iff.2 fun e ↦ h t ht (hp t e)⟩)
  have hwhere := hcov (isClause "where") (fun t ht ↦ by simpa using (Bool.and_eq_true_iff.1 ht).1) (by decide)
  have htrailing := hcov isTrailing (fun _ ↦ kind_of_isTrailing) (by decide)
  rw [withFilter, cutOutside_eq_none_iff.2 hwhere, cutOutside_eq_none_iff.2 htrailing]
  have hlast : ∀ t ∈ (trimmed (⟨.clause, "FROM"⟩ :: ts) ++ added timeFilterToken []).getLast?, t.isBlank = false := by
    simp [added, Token.isBlank, timeFilterToken]
  simpa [added] using trimmed_append_blanks hlast fun t ht ↦ isBlank_of_mem_blankEnd ht

/-- A condition is taken behind the filter. -/
theorem trimmed_withFilter_where (us : List Token) (h : Condition ts)
    (hn : ∀ t ∈ us, t.kind ≠ .clause ∧ t.isFlat = true) :
    trimmed (withFilter timeFilterToken (⟨.clause, "FROM"⟩ :: (us ++ space :: whereWord :: space :: ts))) =
      ⟨.clause, "FROM"⟩ :: us ++ added timeFilterToken (space :: Token.and :: space :: ts) := by
  have hwhere : Covered (isClause "where") 0 (⟨.clause, "FROM"⟩ :: us ++ [space]) := by
    refine covered_of_forall (List.forall_mem_append.2 ⟨List.forall_mem_cons.2 ⟨by decide, fun t ht ↦ ?_⟩, by decide⟩)
    simp [isClause, (hn t ht).1]
  have hflat : ∀ t ∈ (⟨.clause, "FROM"⟩ :: us ++ [space] : List Token), t.isFlat = true :=
    List.forall_mem_append.2 ⟨List.forall_mem_cons.2 ⟨by decide, fun t ht ↦ (hn t ht).2⟩, by decide⟩
  have hcut : cutOutside (isClause "where") (⟨.clause, "FROM"⟩ :: us ++ space :: whereWord :: space :: ts) =
      some (⟨.clause, "FROM"⟩ :: us ++ [space], whereWord, space :: ts) := by
    refine cutOutside_eq_some_iff.2 ⟨by simp, hwhere, ?_, by decide⟩
    rw [depthAfter_of_depthRun (depthRun_of_flat hflat 0)]
    rfl
  have hwith : withFilter timeFilterToken (⟨.clause, "FROM"⟩ :: (us ++ space :: whereWord :: space :: ts)) =
      ⟨.clause, "FROM"⟩ :: us ++ added timeFilterToken (space :: Token.and :: space :: ts) := by
    rw [← List.cons_append, withFilter, hcut]
    simp [guarded, withSpace, added, timeFilterToken, Token.isBlank]
  rw [hwith]
  refine trimmed_eq_self fun t ht ↦ ?_
  obtain ⟨u, hu, hb⟩ := h.last
  have he : ⟨.clause, "FROM"⟩ :: us ++ added timeFilterToken (space :: Token.and :: space :: ts) =
      (⟨.clause, "FROM"⟩ :: us ++ added timeFilterToken [space, Token.and, space]) ++ ts := by
    simp [added]
  rw [he, List.getLast?_append, hu] at ht
  exact Option.some.inj ht ▸ hb

theorem opensComment_of_forall (h : ∀ t ∈ ts, t.text ≠ ['/']) : opensComment ts = false := by
  induction ts with
  | nil => rfl
  | cons t ts ih =>
    obtain ⟨ht, hts⟩ := List.forall_mem_cons.1 h
    simp [opensComment, ht, ih hts]

theorem trimmed_from (h : TableName name) (hp : fs <+: name) (hne : fs ≠ []) :
    trimmed (⟨.clause, "FROM"⟩ :: space :: fs) = ⟨.clause, "FROM"⟩ :: space :: fs := by
  refine trimmed_eq_self fun t ht ↦ ?_
  rw [List.getLast?_cons_cons, List.getLast?_cons_of_ne_nil hne] at ht
  exact h.isBlank_of_mem (hp.subset (List.mem_of_getLast? ht))

/-- The expansion is a query from which the start of a table name that is left in it can be read. -/
theorem exists_parse_expansion (m : Mode) (ts : List Token) (h : TableName name)
    (hname : ∀ t ∈ name, Lexed [t]) (hp : fs <+: name)
    (hf : Lexed (⟨.clause, "FROM"⟩ :: space :: fs)) (ht : Lexed (space :: (ts ++ [closeParen])))
    (hts : ∀ t ∈ ts, t.isFlat = true) :
    ∃ q, parse (textOf (expansion m (trimmed (⟨.clause, "FROM"⟩ :: space :: fs)) (space :: ts))) = .ok q ∧
      q.innermost.source = some (.table (tablesOf fs)) := by
  have hcode : ∀ t ∈ (⟨.clause, "FROM"⟩ :: space :: fs : List Token), t.kind ≠ .comment ∧ t.text ≠ ['/'] := by
    refine List.forall_mem_cons.2 ⟨by decide, List.forall_mem_cons.2 ⟨by decide, fun t ht ↦ ?_⟩⟩
    exact ⟨code_of_flat (h.flat t (hp.subset ht)), h.ne_slash hname (hp.subset ht)⟩
  have hlexed := lexed_trimmed hf fun t ht ↦ (hcode t ht).1
  have hlast : ∀ t ∈ (trimmed (⟨.clause, "FROM"⟩ :: space :: fs)).getLast?, t.kind ≠ .blank ∧ t.kind ≠ .comment :=
    last_trimmed fun t ht ↦ (hcode t ht).1
  have hopens : opensComment (trimmed (⟨.clause, "FROM"⟩ :: space :: fs)) = false :=
    opensComment_of_forall fun t ht ↦ (hcode t (mem_of_mem_trimmed ht)).2
  -- the space before the name goes if nothing of the name is left
  have hgap : ∃ gs, (∀ t ∈ gs, t.isBlank = true) ∧
      trimmed (⟨.clause, "FROM"⟩ :: space :: fs) = ⟨.clause, "FROM"⟩ :: (gs ++ fs) := by
    by_cases hne : fs = []
    · subst hne
      exact ⟨[], nofun, by decide⟩
    · exact ⟨[space], by decide, trimmed_from h hp hne⟩
  obtain ⟨gs, hg, he⟩ := hgap
  rw [he] at hlexed hlast hopens ⊢
  exact parse_expansion m h hname hp hg (lexed_expansion m hlexed hlast hopens ht)
    (List.forall_mem_cons.2 ⟨by decide, hts⟩)

end Aggregation
end QueryTemplate
