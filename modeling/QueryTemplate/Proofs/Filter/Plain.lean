import Mathlib.Data.List.TakeWhile
import QueryTemplate.Proofs.Filter.Compile
import QueryTemplate.Proofs.Query.Unread
namespace QueryTemplate

open Token

variable {r : Request} {s name : Text} {q : Query} {ts : List Token} {vs : List Variable}

/-- Nothing in a text looks like a placeholder, a macro or a reference to a variable. -/
structure Unmarked (s : Text) : Prop where
  dollars : '$' ∉ s
  brackets : ¬ "[[".toList <:+: s

theorem Unmarked.tail {c : Char} (h : Unmarked (c :: s)) : Unmarked s :=
  ⟨fun hd ↦ h.dollars (List.mem_cons_of_mem c hd),
    fun hb ↦ h.brackets (hb.trans (List.suffix_cons c s).isInfix)⟩

theorem afterPrefix?_eq_none {p : Text} (h : ¬ p <+: s) : Text.afterPrefix? p s = none := by
  rw [Option.eq_none_iff_forall_ne_some]
  intro t ht
  exact h ⟨t, (Text.afterPrefix?_eq_some_iff.1 ht).symm⟩

theorem Reference.between?_eq_none {opening closing : Text} (h : ¬ opening <+: s) :
    between? opening closing s = none := by
  rw [between?, afterPrefix?_eq_none h]
  rfl

theorem Unmarked.read?_eq_none (h : Unmarked s) : Reference.read? s = none := by
  have hdollar : ∀ w : Text, ¬ '$' :: w <+: s := fun w hw ↦ h.dollars (hw.subset List.mem_cons_self)
  have hbraces : ¬ "$\x7b".toList <+: s := hdollar ['\x7b']
  have hbare : Reference.bare? s = none := by
    rw [Reference.bare?, show Text.afterPrefix? "$" s = none from afterPrefix?_eq_none (hdollar [])]
    rfl
  rw [Reference.read?, Reference.between?_eq_none hbraces,
    Reference.between?_eq_none fun hb ↦ h.brackets hb.isInfix, hbare]
  rfl

/-- No variable is put into an unmarked text. -/
theorem Unmarked.interpolate (h : Unmarked s) (vs : List Variable) : interpolate vs s = s := by
  induction s with
  | nil => rw [QueryTemplate.interpolate]
  | cons c s ih =>
    rw [QueryTemplate.interpolate]
    split
    · rename_i e
      rw [h.read?_eq_none] at e
      cases e
    · rw [ih h.tail]

/-- A text without dollar signs has no calls of placeholders, if it can be read. -/
theorem findCall_of_undollared (hd : '$' ∉ s) (hn : '$' ∈ name) :
    findCall s name = (tokens? s).map fun _ ↦ none := by
  have htext := textOf_scan s
  have hother : ∀ t ∈ (scan s).tokens, t.text ≠ name := by
    rintro t ht rfl
    refine hd ?_
    rw [← htext, List.mem_append, textOf, List.mem_flatMap]
    exact .inl ⟨t, ht, hn⟩
  have hdrop : (scan s).tokens.dropWhile
    (fun t : Token ↦ !(t.kind = .placeholder && t.text = name)) = [] :=
    List.dropWhile_eq_nil_iff.2 fun t ht ↦ by simp [hother t ht]
  simp only [findCall, hdrop, tokens?, atEnd]
  split <;> rfl

namespace Request

/-- The interval and the rounding step are durations, and neither their products nor the bounds
overflow. -/
structure Measurable (r : Request) : Prop where
  interval : ∃ ms, Time.durationMs r.options.interval = .ok ms ∧
    ms * max r.options.intervalFactor 1 < Width.unsignedLimit
  window : ∀ n, Time.intervalSeconds r.options.interval r.options.intervalFactor = .ok n →
    ∃ step w, Time.roundSeconds r.options.round n = .ok step ∧ r.range.window step = .ok w

theorem exists_intervalMs_iff {s : Text} {n : Nat} : (∃ ms, Time.intervalMs s n = .ok ms) ↔
    ∃ ms, Time.durationMs s = .ok ms ∧ ms * max n 1 < Width.unsignedLimit := by
  rw [Time.intervalMs]
  cases Time.durationMs s with
  | error e => simp [Except.bind]
  | ok ms =>
    by_cases hlt : ms * max n 1 < Width.unsignedLimit
    · simp [Except.bind, Width.unsigned?, hlt]
    · simp [Except.bind, Width.unsigned?, hlt]

theorem measurable_iff : r.Measurable ↔ ∃ m, r.measures = .ok m := by
  constructor
  · intro h
    obtain ⟨k, hk⟩ := exists_intervalMs_iff.2 h.interval
    obtain ⟨ms, hms, -⟩ := h.interval
    obtain ⟨n, hn⟩ : ∃ n, Time.intervalSeconds r.options.interval r.options.intervalFactor =
        .ok n := by
      rw [Time.intervalSeconds, hms]
      split <;> exact ⟨_, rfl⟩
    obtain ⟨step, w, hs, hw⟩ := h.window n hn
    refine ⟨⟨n, k, w⟩, ?_⟩
    simp only [measures, bind, hn, hk, hs, hw, Except.bind]
    rfl
  · rintro ⟨m, hm⟩
    obtain ⟨n, hn, hm⟩ := ok_of_bind hm
    obtain ⟨k, hk, hm⟩ := ok_of_bind hm
    obtain ⟨step, hs, hm⟩ := ok_of_bind hm
    obtain ⟨w, hw, -⟩ := ok_of_bind hm
    refine ⟨exists_intervalMs_iff.1 ⟨k, hk⟩, fun n' hn' ↦ ⟨step, w, ?_, hw⟩⟩
    rw [hn] at hn'
    rwa [← Except.ok.inj hn']

/-- Conditionals and variables leave an unmarked text as it is. -/
theorem read_unmarked (h : Unmarked s) :
    r.read s = (tokens? s).bind fun _ ↦ (parse s).map fun q ↦ (s, q) := by
  have hfind : findCall s conditionalName = (tokens? s).map fun _ ↦ none :=
    findCall_of_undollared h.dollars (by decide)
  rw [read]
  cases ht : tokens? s with
  | error e =>
    rw [ht] at hfind
    have herror : resolveConditionals r.vars s = .error e := by
      rw [resolveConditionals]
      split
      · rename_i he
        rw [hfind] at he
        exact congrArg _ (Except.error.inj he).symm
      · rename_i he
        rw [hfind] at he
        cases he
      · rename_i he
        rw [hfind] at he
        cases he
    rw [herror]
    rfl
  | ok ts =>
    rw [ht] at hfind
    rw [resolveConditionals_of_findCall hfind, Except.bind, h.interpolate]
    rfl

/-- What is read of a text without dollar signs has no macros. -/
theorem first?_of_undollared (hl : Lexed ts) (hd : '$' ∉ textOf ts)
    (hq : parse (textOf ts) = .ok q) :
    Aggregation.first? q = none := by
  have hkinds : ∀ t ∈ ts, t.kind ≠ .aggregation := by
    intro t ht hk
    have hlex := hl.lexical t ht
    obtain ⟨c, w, hw⟩ := List.exists_cons_of_ne_nil hlex.text_ne_nil
    have hstart := hlex.startsKind c (by rw [hw]; rfl)
    rw [hk] at hstart
    obtain rfl : c = '$' := by simpa [Grammar.startsKind] using hstart
    exact hd (List.mem_flatMap.2 ⟨t, ht, by rw [hw]; exact List.mem_cons_self⟩)
  rw [parse_textOf hl] at hq
  have hcalls := Draft.calls_parse .empty hkinds hq
  refine List.find?_eq_none.2 fun m _ ↦ ?_
  simp [Query.has, Query.lookupCall, hcalls]

/-- A plain query is compiled to itself if it can be read, and to an error if not. -/
theorem compile_plain {k : Bool} (h : Unmarked s) (hskip : r.options.skipComments = false)
    (hm : r.Measurable) (hf : ∀ q, parse s = .ok q → r.conditions q = []) :
    ((∃ ls, tokenize k s = .ok ls) ∧ (∃ q, parse s = .ok q) → r.compile s = .ok s) ∧
      (¬((∃ ls, tokenize k s = .ok ls) ∧ ∃ q, parse s = .ok q) → ∃ e, r.compile s = .error e) := by
  rw [compile_eq, read_unmarked h, tokenize]
  cases ht : tokens? s with
  | error e => exact ⟨fun hok ↦ (nomatch hok.1.choose_spec), fun _ ↦ ⟨e, rfl⟩⟩
  | ok ts =>
    cases hq : parse s with
    | error e => exact ⟨fun hok ↦ (nomatch hok.2.choose_spec), fun _ ↦ ⟨e, rfl⟩⟩
    | ok q =>
      refine ⟨fun _ ↦ ?_, fun hn ↦ absurd ⟨⟨_, rfl⟩, q, rfl⟩ hn⟩
      obtain ⟨rfl, hl⟩ := tokens?_eq_ok_iff.1 ht
      obtain ⟨m, hmeasures⟩ := measurable_iff.1 hm
      have hcalls : ∀ t ∈ ts, t.text ∉ callNames := fun t hts ↦
        not_call_of_undollared fun hd ↦ h.dollars (List.mem_flatMap.2 ⟨t, hts, hd⟩)
      rw [Except.bind, Except.map, Except.bind, filtered_eq, hf q hq, if_pos (by simp)]
      refine finish_eq_ok_iff.2 ⟨textOf ts, textOf ts, m, ?_, withoutCalls_textOf hl hcalls,
        hmeasures, ?_⟩
      · rw [Aggregation.expand, first?_of_undollared hl h.dollars hq]
      · rw [hskip, if_neg Bool.false_ne_true, substituted_free h.dollars]

/-- A request with a variable and a filter on a column of another table. -/
def strayRequest : Request :=
  { range := ⟨⟨1704067200, 0⟩, ⟨1704070800, 0⟩, false⟩,
    vars := [{ name := "x", current := .text "y" }],
    filters := [⟨"d.u.a", "=", .text "z"⟩] }

theorem compile_plain_subquery : strayRequest.compile "SELECT x, '[1]' FROM (SELECT a FROM d.t) -- x" =
    .ok "SELECT x, '[1]' FROM (SELECT a FROM d.t) -- x" := by
  have hmarks : Unmarked "SELECT x, '[1]' FROM (SELECT a FROM d.t) -- x" := ⟨by decide +kernel, by decide +kernel⟩
  have hm : strayRequest.Measurable := by
    refine ⟨⟨30000, ok_of_toOption (by decide +kernel), by decide⟩, fun n _ ↦ ⟨0, ?_⟩⟩
    have hw : (strayRequest.range.window 0).toOption.isSome = true := by decide +kernel
    obtain ⟨w, hw⟩ := Option.isSome_iff_exists.1 hw
    exact ⟨w, rfl, ok_of_toOption hw⟩
  have hs : (tokenize true "SELECT x, '[1]' FROM (SELECT a FROM d.t) -- x").toOption.isSome = true := by decide +kernel
  obtain ⟨ts, hts⟩ := Option.isSome_iff_exists.1 hs
  have hp : (parse "SELECT x, '[1]' FROM (SELECT a FROM d.t) -- x").toOption.map strayRequest.conditions = some [] := by
    decide +kernel
  obtain ⟨q, hq, hnone⟩ := Option.map_eq_some_iff.1 hp
  have hq := ok_of_toOption hq
  refine (compile_plain hmarks rfl hm fun q' hq' ↦ ?_).1 ⟨⟨ts, ok_of_toOption hts⟩, q, hq⟩
  obtain rfl := Except.ok.inj (hq.symm.trans hq')
  exact hnone

end Request

end QueryTemplate
