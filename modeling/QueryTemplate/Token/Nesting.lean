import QueryTemplate.Token.Scan

namespace QueryTemplate

open Token

/-- Cuts at the `)` that closes a `(` just before the tokens, with `d` more left open since. -/
def closing? (d : Nat) : List Token → Option (List Token × List Token)
  | [] => none
  | t :: ts =>
    if t.isOpenParen then (closing? (d + 1) ts).map fun p ↦ (t :: p.1, p.2)
    else if t.isCloseParen then
      match d with
      | 0 => some ([], ts)
      | d + 1 => (closing? d ts).map fun p ↦ (t :: p.1, p.2)
    else (closing? d ts).map fun p ↦ (t :: p.1, p.2)

theorem closing?_eq_some {d : Nat} {ts b a : List Token} (h : closing? d ts = some (b, a)) :
    ∃ t, t.isCloseParen = true ∧ ts = b ++ t :: a := by
  induction ts generalizing d b with
  | nil => cases h
  | cons t ts ih =>
    have step : ∀ {d}, (closing? d ts).map (fun p ↦ (t :: p.1, p.2)) = some (b, a) →
        ∃ u, u.isCloseParen = true ∧ t :: ts = b ++ u :: a := by
      intro d h
      obtain ⟨p, hp, e⟩ := Option.map_eq_some_iff.1 h
      obtain ⟨rfl, rfl⟩ := Prod.mk.inj e
      obtain ⟨u, hu, rfl⟩ := ih hp
      exact ⟨u, hu, rfl⟩
    simp only [closing?] at h
    split at h
    · exact step h
    · split at h
      · split at h
        · obtain ⟨rfl, rfl⟩ := Prod.mk.inj (Option.some.inj h)
          exact ⟨t, by assumption, rfl⟩
        · exact step h
      · exact step h

/-- What a `(` just before the tokens encloses, and what follows its `)`. -/
def group (rest : Text) (ts : List Token) : Except Error (List Token × List Token) :=
  match closing? 0 ts with
  | some p => .ok p
  | none => .error (if rest = [] then .unclosed (textOf ts) else .unreadable rest)

theorem closing?_of_group {rest : Text} {ts : List Token} {p : List Token × List Token}
    (h : group rest ts = .ok p) : ∃ t, t.isCloseParen = true ∧ ts = p.1 ++ t :: p.2 := by
  rw [group] at h
  split at h
  · obtain rfl := Except.ok.inj h
    exact closing?_eq_some (by assumption)
  · cases h

theorem group_length {rest : Text} {ts b a : List Token} (h : group rest ts = .ok (b, a)) :
    b.length + a.length + 1 = ts.length := by
  obtain ⟨t, _, rfl⟩ := closing?_of_group h
  simp +arith

/-- The next token, which there must be, and those after it. -/
def expectToken (expected rest : Text) (ts : List Token) : Except Error (Token × List Token) :=
  match ts.dropWhile isBlank with
  | t :: us => .ok (t, us)
  | [] => (atEnd rest ()).bind fun _ ↦ .error (.unexpected expected [] (textOf ts))

/-- The parenthesis that must follow the name of a call. -/
def callGroup (name rest : Text) (ts : List Token) : Except Error (List Token × List Token) :=
  (expectToken "(" rest ts).bind fun p ↦
    if p.1.isOpenParen then group rest p.2
    else .error (.unexpected ("( after " ++ name) p.1.text (textOf p.2 ++ rest))

theorem expectToken_length {expected rest : Text} {ts us : List Token} {t : Token}
    (h : expectToken expected rest ts = .ok (t, us)) : us.length < ts.length := by
  have hl := (List.dropWhile_suffix isBlank (l := ts)).length_le
  rw [expectToken] at h
  split at h
  · rename_i e
    rw [e, List.length_cons] at hl
    obtain ⟨rfl, rfl⟩ := Prod.mk.inj (Except.ok.inj h)
    exact hl
  · rw [atEnd] at h
    split at h <;> cases h

theorem callGroup_length {name rest : Text} {ts b a : List Token}
    (h : callGroup name rest ts = .ok (b, a)) : b.length + a.length + 1 < ts.length := by
  rw [callGroup] at h
  cases he : expectToken "(" rest ts with
  | error => rw [he] at h; cases h
  | ok p =>
    have hp := expectToken_length he
    simp only [he, Except.bind] at h
    split at h
    · exact group_length h ▸ hp
    · cases h

/-- The text up to the `)` that closes a `(` just before it. -/
def betweenParens (s : Text) : Except Error Text :=
  let q := scan s
  (group q.rest q.tokens).map fun p ↦ textOf p.1

/-- The depth at which a token stands, after tokens that leave the depth at `d`. A parenthesis
stands outside of what it encloses. -/
def standing (d : Nat) (t : Token) : Nat := if t.isCloseParen then d - 1 else d

/-- The depth after a token that stands at `d`. -/
def after (d : Nat) (t : Token) : Nat := if t.isOpenParen then d + 1 else d

/-- Tokens cut at headings: those before the first one, and for each heading those up to the
next. -/
structure Sections where
  lead : List Token
  parts : List (Token × List Token)
  deriving DecidableEq, Repr

/-- Cuts at the tokens outside of all parentheses that satisfy `p`. -/
def sections (p : Token → Bool) (d : Nat) : List Token → Sections
  | [] => ⟨[], []⟩
  | t :: ts =>
    let n := standing d t
    let q := sections p (after n t) ts
    if n = 0 && p t then ⟨[], (t, q.lead) :: q.parts⟩ else ⟨t :: q.lead, q.parts⟩

namespace Sections

/-- The tokens that were cut. -/
def tokens (q : Sections) : List Token := q.lead ++ q.parts.flatMap fun p ↦ p.1 :: p.2

/-- The runs of tokens between the headings. -/
def runs (q : Sections) : List (List Token) := q.lead :: q.parts.map Prod.snd

end Sections

theorem tokens_sections (p : Token → Bool) (d : Nat) (ts : List Token) :
    (sections p d ts).tokens = ts := by
  induction ts generalizing d with
  | nil => rfl
  | cons t ts ih =>
    simp only [sections]
    have h := ih (after (standing d t) t)
    split
    · simpa [Sections.tokens] using h
    · simpa [Sections.tokens] using h

/-- The runs of tokens between those outside of all parentheses that satisfy `p`. -/
def splitOutside (p : Token → Bool) (ts : List Token) : List (List Token) :=
  (sections p 0 ts).runs

theorem sublist_of_mem_splitOutside {p : Token → Bool} {ts r : List Token}
    (h : r ∈ splitOutside p ts) : r.Sublist ts := by
  rw [← tokens_sections p 0 ts, Sections.tokens]
  rcases List.mem_cons.1 h with rfl | h
  · exact List.sublist_append_left _ _
  · obtain ⟨q, hq, rfl⟩ := List.mem_map.1 h
    rw [List.flatMap_def]
    refine (List.sublist_cons_self q.1 q.2).trans ?_
    exact (List.sublist_flatten_of_mem (List.mem_map.2 ⟨q, hq, rfl⟩ : q.1 :: q.2 ∈ _)).trans
      (List.sublist_append_right _ _)

theorem textOf_sublist {r ts : List Token} (h : r.Sublist ts) : (textOf r).Sublist (textOf ts) := by
  induction h with
  | slnil => exact .slnil
  | cons t _ ih => exact ih.trans (List.sublist_append_right t.text _)
  | cons_cons t _ ih => exact (List.Sublist.refl t.text).append ih

/-- The tokens before the first one outside of all parentheses that satisfies `p`, that token, and
those after it. -/
def cutOutside (p : Token → Bool) (ts : List Token) : Option (List Token × Token × List Token) :=
  match sections p 0 ts with
  | ⟨_, []⟩ => none
  | ⟨lead, (t, run) :: parts⟩ => some (lead, t, run ++ parts.flatMap fun p ↦ p.1 :: p.2)

/-- The sections of a text at its tokens outside of all parentheses. -/
def outside (s : Text) : Except Error Sections := (tokens? s).map (sections (!·.isBlank) 0)

/-- The headings of sections at their offsets, the sections starting at `n`. -/
def placeHeadings (n : Nat) : List (Token × List Token) → List Located
  | [] => []
  | (t, run) :: ps => ⟨t, n⟩ :: placeHeadings (n + Text.bytes (t.text ++ textOf run)) ps

/-- The tokens outside of all parentheses; parentheses count as outside of themselves. -/
def outsideTokens (s : Text) : Except Error (List Located) :=
  (outside s).map fun q ↦ placeHeadings (Text.bytes (textOf q.lead)) q.parts

/-- The first clause keyword among `ws` outside of all parentheses. -/
def findKeyword (s : Text) (ws : List Text) : Except Error (Option Located) :=
  (outsideTokens s).map fun ts ↦ ts.find? fun t ↦ t.kind = .clause && ws.contains t.keyword

/-- Cuts a text at its tokens outside of all parentheses that satisfy `p`. -/
def splitText (p : Token → Bool) (s : Text) : Except Error (List Text) :=
  (tokens? s).map fun ts ↦ (splitOutside p ts).map textOf

/-- Cuts a text at its tokens outside of all parentheses that read `w`. -/
def splitTextAt (w : Text) : Text → Except Error (List Text) :=
  splitText fun t ↦ !t.isBlank && t.text = w

def isUnionAll (t : Token) : Bool := t.isClause "union all"

/-- The statements between `UNION ALL` outside of all parentheses. -/
def splitUnionAll : Text → Except Error (List Text) := splitText isUnionAll

/-- The arguments between commas, without white space around them; white space alone holds none. -/
def argumentsOf (ts : List Token) : List Text :=
  if Text.trim (textOf ts) = [] then [] else (splitOutside isComma ts).map (Text.trim ∘ textOf)

def splitArguments (s : Text) : Except Error (List Text) :=
  if Text.trim s = [] then .ok [] else (tokens? s).map argumentsOf

theorem textOf_of_tokens? {s : Text} {ts : List Token} (h : tokens? s = .ok ts) :
    textOf ts = s := by
  simp only [tokens?, atEnd] at h
  split at h
  · obtain rfl := Except.ok.inj h
    have := textOf_scan s
    rwa [‹(scan s).rest = []›, List.append_nil] at this
  · cases h

theorem sublist_of_mem_splitArguments {s a : Text} {as : List Text}
    (h : splitArguments s = .ok as) (ha : a ∈ as) : a.Sublist s := by
  simp only [splitArguments] at h
  split at h
  · obtain rfl := Except.ok.inj h
    cases ha
  · cases hs : tokens? s with
    | error => rw [hs] at h; cases h
    | ok ts =>
      rw [hs] at h
      obtain rfl := Except.ok.inj h
      rw [argumentsOf, textOf_of_tokens? hs, if_neg ‹_›] at ha
      obtain ⟨r, hr, rfl⟩ := List.mem_map.1 ha
      have hsub := textOf_sublist (sublist_of_mem_splitOutside hr)
      rw [textOf_of_tokens? hs] at hsub
      exact (Text.trim_sublist _).trans hsub

/-- A call in a text: what stands before it, its arguments, and what follows it. -/
structure Call where
  before : Text
  args : Text
  after : Text
  deriving DecidableEq, Repr

/-- The first call of the placeholder `name`, at any depth. -/
def findCall (s name : Text) : Except Error (Option Call) :=
  let q := scan s
  let other := fun t : Token ↦ !(t.kind = .placeholder && t.text = name)
  match q.tokens.dropWhile other with
  | [] => atEnd q.rest none
  | _ :: ts =>
    match ts.dropWhile isBlank with
    | [] => (atEnd q.rest ()).bind fun _ ↦ .error (.unexpected "(" [] (textOf ts))
    | o :: inner =>
      if o.isOpenParen then
        (group q.rest inner).map fun p ↦
          some ⟨textOf (q.tokens.takeWhile other), textOf p.1, textOf p.2 ++ q.rest⟩
      else .error (.unexpected ("( after " ++ name) o.text (textOf (o :: inner) ++ q.rest))

theorem findCall_length {s name : Text} {c : Call} (h : findCall s name = .ok (some c)) :
    c.before.length + c.args.length + c.after.length < s.length := by
  simp only [findCall] at h
  have hs := congrArg List.length (textOf_scan s)
  split at h
  · simp only [atEnd] at h
    split at h <;> cases h
  · rename_i t ts e
    have hspan := List.takeWhile_append_dropWhile
      (p := fun t : Token ↦ !(t.kind = .placeholder && t.text = name)) (l := (scan s).tokens)
    rw [e] at hspan
    split at h
    · simp only [atEnd] at h
      split at h <;> cases h
    · rename_i o inner e'
      split at h
      · cases hg : group (scan s).rest inner with
        | error => rw [hg] at h; cases h
        | ok p =>
          rw [hg] at h
          obtain rfl := Option.some.inj (Except.ok.inj h)
          obtain ⟨u, hu, hi⟩ := closing?_of_group hg
          have ho := (textOf_sublist (List.dropWhile_sublist isBlank (l := ts))).length_le
          rw [e', hi] at ho
          have hu : u.text.length = 1 := by
            simp only [isCloseParen, Bool.and_eq_true, decide_eq_true_eq] at hu
            rw [hu.2]
            rfl
          rw [← hspan] at hs
          simp only [textOf_append, textOf_cons, List.length_append] at hs ho ⊢
          omega
      · cases h

/-- The last token that is not blank, and the tokens before it. -/
def lastToken? (ts : List Token) : Option (List Token × Token) :=
  match ts.reverse.dropWhile isBlank with
  | [] => none
  | t :: before => some (before.reverse, t)

/-- Whether a line comment would swallow what is put after the text on the same line. -/
def endsInLineComment (s : Text) : Bool :=
  (lastToken? (scan s).tokens).any fun p ↦ p.2.isLineComment

def stripComments (s : Text) : Except Error Text :=
  (tokens? s).map fun ts ↦ textOf (ts.filter (·.kind ≠ .comment))

/-- Takes the alias off `expression AS alias`, or off `call(...) alias`. -/
def splitAlias (s : Text) : Except Error (Option (Text × Text)) :=
  (outside s).map fun q ↦
    match q.parts.reverse with
    | (last, _) :: (before, run) :: earlier =>
      let head := q.lead ++ earlier.reverse.flatMap fun p ↦ p.1 :: p.2
      if last.kind ≠ .identifier && last.kind ≠ .string then none
      else if before.kind = .identifier && Text.lower before.text = "as" then
        if earlier = [] then none else some (Text.trim (textOf head), last.text)
      else if before.isCloseParen then
        some (Text.trim (textOf (head ++ before :: run)), last.text)
      else none
    | _ => none

end QueryTemplate
