import QueryTemplate.Token.Recognizer

namespace QueryTemplate.Grammar

open Recognizer

def blank : Recognizer := gap

def lineComment : Recognizer := (exactly "--").seq (many (· ≠ '\n'))

/-- What follows the first `*/`. -/
def commentEnd : Recognizer
  | '*' :: '/' :: s => some s
  | _ :: s => commentEnd s
  | [] => none

def blockComment : Recognizer := (exactly "/*").seq commentEnd

def comment : Recognizer := oneOf [lineComment, blockComment]

/-- Names that begin with a shorter one stand before it. -/
def aggregationNames : List Text :=
  ["deltaColumnsAggregated", "increaseColumnsAggregated", "perSecondColumnsAggregated",
    "rateColumnsAggregated", "rateColumns", "perSecondColumns", "increaseColumns",
    "deltaColumns", "columnsMs", "columns", "perSecond", "increase", "delta", "rate"]

def aggregation : Recognizer :=
  (exactly "$").seq ((oneOf (aggregationNames.map exactly)).seq boundary)

def modifiers : List Text := ["totals", "fill", "rollup", "cube", "ties"]

/-- `WITH` before one of these words modifies a clause and opens none. -/
def withModifier : Recognizer :=
  gap.seq ((oneOf (modifiers.map word)).seq boundary)

def clausePhrases : List (List Text) :=
  [["select"], ["from"], ["prewhere"], ["where"], ["having"], ["limit"], ["format"],
    ["group", "by"], ["order", "by"], ["union", "all"]]

def clause : Recognizer :=
  (oneOf (clausePhrases.map phrase ++ [(word "with").seq (notAhead withModifier)])).seq boundary

def joinStrictness : List (List Text) := [["any"], ["all"], ["asof"]]

def joinKinds : List (List Text) :=
  [["inner"], ["left", "array"], ["left"], ["right"], ["full"], ["cross"], ["paste"], ["array"]]

def joinModifiers : List (List Text) := [["outer"], ["semi"], ["anti"], ["any"], ["all"], ["asof"]]

/-- One of the phrases and the blanks after it, or nothing. -/
def optional (ps : List (List Text)) : Recognizer := maybe ((oneOf (ps.map phrase)).seq gap)

def join : Recognizer :=
  (optional [["global"]]).seq <| (optional joinStrictness).seq <| (optional joinKinds).seq <|
    (optional joinModifiers).seq <| (word "join").seq boundary

def joinConstraint : Recognizer := (oneOf [word "using", word "on"]).seq boundary

def conjunction : Recognizer := (oneOf [word "and", word "or"]).seq boundary

def membershipPhrases : List (List Text) :=
  [["global", "not", "in"], ["global", "in"], ["not", "in"], ["in"]]

def membership : Recognizer := (oneOf (membershipPhrases.map phrase)).seq boundary

def placeholder : Recognizer := oneOf [
  (exactly "$\x7b").seq ((many (· ≠ '}')).seq (exactly "\x7d")),
  (exactly "$").seq (many1 fun c ↦ Text.isNameChar c || c = '$')]

/-- What follows the quote that closes a quoted text. A backslash takes the next character with
it, and where `doubled` holds two quotes in a row stand for one. -/
def quotedRest (q : Char) (doubled : Bool) : Recognizer
  | [] => none
  | [c] => if c = q then some [] else none
  | c :: d :: s =>
    if c = '\\' then quotedRest q doubled s
    else if c = q then
      if doubled && d = q then quotedRest q doubled s else some (d :: s)
    else quotedRest q doubled (d :: s)

def quoted (q : Char) (doubled : Bool) : Recognizer := (one (· = q)).seq (quotedRest q doubled)

def string : Recognizer := oneOf [quoted '\'' true, quoted '`' false, quoted '"' false]

def digits : Recognizer := many1 Char.isDigit

def isHexDigit (c : Char) : Bool :=
  c.isDigit || ('a' ≤ c && c ≤ 'f') || ('A' ≤ c && c ≤ 'F')

def exponent : Recognizer :=
  (word "e").seq ((maybe (one fun c ↦ c = '+' || c = '-')).seq digits)

def number : Recognizer := oneOf [
  (exactly "0x").seq (many1 isHexDigit),
  digits.seq ((exactly ".").seq ((many Char.isDigit).seq (maybe exponent))),
  (exactly ".").seq (digits.seq (maybe exponent)),
  digits.seq exponent,
  digits]

def identifier : Recognizer := (one fun c ↦ c.isAlpha || c = '_').seq (many Text.isNameChar)

def operators : List Text :=
  ["=>", "||", ">=", "<=", "==", "!=", "<>", "->", "::", "-", "+", "/", "%", "*", "=", "<", ">",
    ".", "!"]

def operator : Recognizer := oneOf (operators.map exactly)

def opening : Recognizer := one fun c ↦ c = '(' || c = '['

def closing : Recognizer := one fun c ↦ c = ')' || c = ']'

def punctuation : Recognizer := one fun c ↦
  c = ',' || c = ':' || c = '?' || c = ';' || c = '{' || c = '}'

/-- The classes in the order in which they are tried. -/
def classes : List (Kind × Recognizer) := [
  (.blank, blank), (.comment, comment), (.aggregation, aggregation), (.clause, clause),
  (.join, join), (.joinConstraint, joinConstraint), (.conjunction, conjunction),
  (.membership, membership), (.placeholder, placeholder), (.string, string), (.number, number),
  (.identifier, identifier), (.operator, operator), (.opening, opening), (.closing, closing),
  (.punctuation, punctuation)]

/-- The first token of a text and what follows it. -/
def munch (s : Text) : Option (Token × Text) :=
  classes.findSome? fun (k, r) ↦ (r s).map fun t ↦ (⟨k, s.take (s.length - t.length)⟩, t)

theorem splits_commentEnd : Splits commentEnd where
  suffix {s t} e := by
    fun_induction commentEnd s with
    | case1 s => exact Option.some.inj e ▸ (List.suffix_cons _ _).trans (List.suffix_cons _ _)
    | case2 c s _ ih => exact (ih e).trans (List.suffix_cons _ _)
    | case3 => cases e

theorem splits_quotedRest (q : Char) (doubled : Bool) : Splits (quotedRest q doubled) where
  suffix {s t} e := by
    fun_induction quotedRest q doubled s with
    | case1 => cases e
    | case2 => exact Option.some.inj e ▸ List.nil_suffix
    | case3 => cases e
    | case4 d s ih => exact (ih e).trans ((List.suffix_cons _ _).trans (List.suffix_cons _ _))
    | case5 d s _ _ ih =>
      exact (ih e).trans ((List.suffix_cons _ _).trans (List.suffix_cons _ _))
    | case6 => exact Option.some.inj e ▸ List.suffix_cons _ _
    | case7 c d s _ _ ih => exact (ih e).trans (List.suffix_cons _ _)

theorem consumes_quoted (q : Char) (doubled : Bool) : Consumes (quoted q doubled) :=
  (Consumes.one _).seq (splits_quotedRest q doubled)

theorem splits_optional {ps : List (List Text)} (h : ∀ p ∈ ps, ∃ w ∈ p.head?, w ≠ []) :
    Splits (optional ps) :=
  .maybe ((Consumes.phrases h).seq Consumes.gap.toSplits).toSplits

theorem consumes_exponent : Consumes exponent :=
  (Consumes.word (by simp)).seq ((Splits.maybe (Consumes.one _).toSplits).seq (Consumes.many1 _).toSplits)

theorem consumes_comment : Consumes comment := by
  refine .oneOf fun r hr ↦ ?_
  simp only [List.mem_cons, List.not_mem_nil, or_false] at hr
  rcases hr with rfl | rfl
  · exact (Consumes.exactly (by simp)).seq (.many _)
  · exact (Consumes.exactly (by simp)).seq splits_commentEnd

theorem consumes_aggregation : Consumes aggregation :=
  (Consumes.exactly (by simp)).seq
    ((Consumes.texts (by simp [aggregationNames])).toSplits.seq .boundary)

theorem consumes_clause : Consumes clause := by
  refine .seq (.oneOf fun r hr ↦ ?_) .boundary
  rcases List.mem_append.1 hr with hr | hr
  · obtain ⟨p, hp, rfl⟩ := List.mem_map.1 hr
    refine .phrase ?_
    revert p
    simp [clausePhrases]
  · obtain rfl := List.mem_singleton.1 hr
    exact (Consumes.word (by simp)).seq (.notAhead _)

theorem consumes_join : Consumes join := by
  have h := (Consumes.word (w := "join") (by simp)).seq .boundary
  exact (splits_optional (by simp)).seq_consumes <|
    (splits_optional (by simp [joinStrictness])).seq_consumes <|
    (splits_optional (by simp [joinKinds])).seq_consumes <|
    (splits_optional (by simp [joinModifiers])).seq_consumes h

theorem consumes_words {v w : Text} (hv : v ≠ []) (hw : w ≠ []) :
    Consumes ((oneOf [word v, word w]).seq boundary) := by
  refine .seq (.oneOf fun r hr ↦ ?_) .boundary
  simp only [List.mem_cons, List.not_mem_nil, or_false] at hr
  rcases hr with rfl | rfl
  · exact .word hv
  · exact .word hw

theorem consumes_placeholder : Consumes placeholder := by
  refine .oneOf fun r hr ↦ ?_
  simp only [List.mem_cons, List.not_mem_nil, or_false] at hr
  rcases hr with rfl | rfl
  · exact (Consumes.exactly (by simp)).seq ((Splits.many _).seq (Consumes.exactly (by simp)).toSplits)
  · exact (Consumes.exactly (by simp)).seq (Consumes.many1 _).toSplits

theorem consumes_string : Consumes string := by
  refine .oneOf fun r hr ↦ ?_
  simp only [List.mem_cons, List.not_mem_nil, or_false] at hr
  rcases hr with rfl | rfl | rfl <;> exact consumes_quoted _ _

theorem consumes_number : Consumes number := by
  have hd : Consumes digits := .many1 _
  have he : Splits (maybe exponent) := .maybe consumes_exponent.toSplits
  have hp : Consumes (exactly ".") := .exactly (by simp)
  refine .oneOf fun r hr ↦ ?_
  simp only [List.mem_cons, List.not_mem_nil, or_false] at hr
  rcases hr with rfl | rfl | rfl | rfl | rfl
  · exact (Consumes.exactly (by simp)).seq (Consumes.many1 _).toSplits
  · exact hd.seq (hp.toSplits.seq ((Splits.many _).seq he))
  · exact hp.seq (hd.toSplits.seq he)
  · exact hd.seq consumes_exponent.toSplits
  · exact hd

theorem consumes_of_mem_classes {c : Kind × Recognizer} (h : c ∈ classes) : Consumes c.2 := by
  simp only [classes, List.mem_cons, List.not_mem_nil, or_false] at h
  rcases h with rfl | rfl | rfl | rfl | rfl | rfl | rfl | rfl | rfl | rfl | rfl | rfl | rfl | rfl |
    rfl | rfl
  · exact .gap
  · exact consumes_comment
  · exact consumes_aggregation
  · exact consumes_clause
  · exact consumes_join
  · exact consumes_words (by simp) (by simp)
  · exact consumes_words (by simp) (by simp)
  · exact (Consumes.phrases (by simp [membershipPhrases])).seq .boundary
  · exact consumes_placeholder
  · exact consumes_string
  · exact consumes_number
  · exact (Consumes.one _).seq (.many _)
  · exact .texts (by simp [operators])
  all_goals exact .one _

/-- A token is not empty, and the text is the token and what follows it. -/
theorem munch_eq_some {s t : Text} {k : Token} (h : munch s = some (k, t)) :
    k.text ≠ [] ∧ s = k.text ++ t := by
  obtain ⟨c, hc, e⟩ := List.exists_of_findSome?_eq_some h
  obtain ⟨u, hu, e⟩ := Option.map_eq_some_iff.1 e
  have hr := consumes_of_mem_classes hc
  obtain ⟨rfl, rfl⟩ := Prod.mk.inj e
  obtain ⟨p, rfl⟩ := hr.suffix hu
  have hl := hr.shorter hu
  rw [List.length_append] at hl
  refine ⟨?_, by simp⟩
  simp only [List.length_append, Nat.add_sub_cancel, List.take_left', ne_eq]
  rintro rfl
  simp at hl

theorem munch_shorter {s t : Text} {k : Token} (h : munch s = some (k, t)) :
    t.length < s.length := by
  obtain ⟨hk, rfl⟩ := munch_eq_some h
  have := List.length_pos_iff.2 hk
  rw [List.length_append]
  omega

end QueryTemplate.Grammar
