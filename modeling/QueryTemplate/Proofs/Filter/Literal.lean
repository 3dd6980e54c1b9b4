import QueryTemplate.Proofs.Filter.Typeset
import QueryTemplate.Proofs.Token.Quoted
import QueryTemplate.Request.Basic
namespace QueryTemplate

open Token Grammar

variable {v x : Text} {f : Filter} {target : Option Target} {P : Token → Prop}

theorem lexed_quote (s : Text) : Lexed [⟨.string, Text.quote s⟩] :=
  lexed_singleton.2 (munch_quote s (Text.stops_nil _))

/-- The literal of a text that is no numeral is one token. -/
theorem exists_literal (hP : ∀ s, P ⟨.string, Text.quote s⟩) (hn : Text.isNumeral v = false) :
    ∃ ls, textOf ls = (FilterValue.text v).literal ∧ IsBlock P ls ∧ ahead ls = [] := by
  refine ⟨[⟨.string, Text.quote v⟩], ?_, .singleton (lexed_quote v) (hP v) ⟨by simp, by simp⟩,
    ahead_symbol rfl rfl []⟩
  simp [FilterValue.literal, hn]

namespace Filter

/-- What is needed of a filter so that its predicate is read as it is meant: column and operator are
code, and so is the literal. -/
structure Readable (P : Token → Prop) (f : Filter) : Prop where
  column : ∀ c ∈ ((Text.splitBy (· = '.') f.key).map Text.trim).getLast?,
    ∀ o ∈ operator? f.operator,
    ∃ cs, textOf cs = c ++ ' ' :: o ∧ IsBlock P cs
  literal : ∃ ls, textOf ls = f.value.literal ∧ IsBlock P ls ∧ ahead ls = []

theorem qualify_column {d t c : Text} {parts : List Text}
    (h : qualify target parts = .ok (d, t, c)) : parts.getLast? = some c := by
  simp only [qualify] at h
  split at h
  · cases h
  · split at h <;> cases h <;> rfl

theorem eq_of_condition (h : f.condition target = .ok (some x)) : ∃ c o,
    ((Text.splitBy (· = '.') f.key).map Text.trim).getLast? = some c ∧
      operator? f.operator = some o ∧
      x = c ++ ' ' :: o ++ ' ' :: f.value.literal := by
  rw [condition] at h
  split at h
  · cases h
  · cases h
  · rename_i d t c o hq ho
    refine ⟨c, o, qualify_column hq, ho, ?_⟩
    obtain ⟨y, -, hy⟩ := Option.bind_eq_some_iff.1 (Except.ok.inj h)
    split at hy
    · exact (Option.some.inj hy).symm
    · cases hy

/-- The predicate of a readable filter. -/
theorem Readable.exists_condition (hP : Lax P) (hf : Readable P f)
    (h : f.condition target = .ok (some x)) :
    ∃ c, textOf c = x ∧ IsCondition P c := by
  obtain ⟨c, o, hc, ho, rfl⟩ := eq_of_condition h
  obtain ⟨cs, htext, hcs⟩ := hf.column c hc o ho
  obtain ⟨ls, hlit, hls, hahead⟩ := hf.literal
  refine ⟨cs ++ space :: ls,
    by simp [htext, hlit, space], hcs.append hP hls hahead isGap_space, fun e ↦ ?_⟩
  have := congrArg List.length e
  have hpos := List.length_pos_iff.2 hcs.text_ne_nil
  simp [space] at this
  omega

/-- The predicates of readable filters can all be put into a query. -/
theorem exists_conditions {fs : List Filter} (hP : Lax P) (hfs : ∀ f ∈ fs, Readable P f) :
    ∀ x ∈ conditions fs target, ∃ c, textOf c = x ∧ IsCondition P c := by
  intro x hx
  obtain ⟨f, hf, hx⟩ := List.mem_filterMap.1 hx
  split at hx
  · subst hx
    exact (hfs f hf).exists_condition hP ‹_›
  · cases hx

end Filter
end QueryTemplate
