import QueryTemplate.Proofs.Query.Layout
import QueryTemplate.Proofs.Query.Assign
namespace QueryTemplate

open Token

/-- The clause whose keyword the token is. -/
def Token.clause? (t : Token) : Option Clause :=
  if t.kind = .clause then Clause.ofKeyword? t.keyword else none

/-- Whether the token is the keyword of a clause that was not seen yet. -/
def Token.opens (seen : List Clause) (t : Token) : Bool := t.clause?.any fun c ↦ !seen.contains c

def isConjunction (t : Token) : Bool := t.kind = .conjunction

/-- A query cut at its clause keywords outside of all parentheses. A keyword counts the first time
only; where it stands again it is a token like any other. -/
def chapters (seen : List Clause) (ts : List Token) : Sections :=
  match _h : cutOutside (·.opens seen) ts with
  | none => ⟨ts, []⟩
  | some (lead, t, us) =>
    ⟨lead, (t, (chapters (t.clause?.toList ++ seen) us).lead) ::
      (chapters (t.clause?.toList ++ seen) us).parts⟩
termination_by ts.length
decreasing_by
  all_goals
    have := congrArg List.length (cutOutside_eq_some_iff.1 _h).1
    simp only [List.length_append, List.length_cons] at this
    omega

/-- Tokens written one after the other with normal spacing. -/
def written (ts : List Token) : Fragment := (inked ts).foldl (fun f t ↦ f.pushToken t) {}

/-- The item that some tokens make, unless they are white space alone. -/
def itemOf? (ts : List Token) : Option Text :=
  if inked ts = [] then none else some (written ts).text

/-- The pieces of the tokens `w` and `ts`, the latter at the depth `d`. Among predicates each `AND`
and `OR` outside of all parentheses in `ts` starts one. -/
def piecesFrom (c : Clause) (w : List Token) (d : Nat) (ts : List Token) : List (List Token) :=
  if c.isPredicate then
    (w ++ (sections isConjunction d ts).lead) :: (sections isConjunction d ts).parts.map fun p ↦
      p.1 :: p.2
  else [w ++ ts]

/-- What stands between the items on both sides of a comma. -/
def commaItems (c : Clause) : List Text := if c = .slot .condition then [[',']] else []

/-- The items of a clause whose tokens are `w` and `ts`, the latter at the depth `d`, with no cut in
`w`. -/
def itemsFrom (c : Clause) (w : List Token) (d : Nat) (ts : List Token) : List Text :=
  (commaItems c).intercalate ((piecesFrom c w d (sections isComma d ts).lead).filterMap itemOf? ::
    (sections isComma d ts).parts.map fun p ↦ (piecesFrom c [] 0 p.2).filterMap itemOf?)

/-- The items of a clause: its tokens cut at the commas outside of all parentheses, and predicates
also before each `AND` and `OR`, without the runs of white space. -/
def itemsOf (c : Clause) (ts : List Token) : List Text :=
  (commaItems c).intercalate ((splitOutside isComma ts).map fun r ↦
    (piecesFrom c [] 0 r).filterMap itemOf?)

variable {c : Clause} {seen : List Clause} {w ts us : List Token} {t : Token} {d : Nat}

theorem itemsFrom_zero : itemsFrom c [] 0 ts = itemsOf c ts := by
  rw [itemsFrom, itemsOf, splitOutside, Sections.runs, List.map_cons, List.map_map]
  rfl

theorem piecesFrom_nil : piecesFrom c w d [] = [w] := by
  rw [piecesFrom, sections, List.append_nil]
  split <;> rfl

theorem itemsFrom_nil : itemsFrom c w d [] = (itemOf? w).toList := by
  rw [itemsFrom, sections, piecesFrom_nil, List.map_nil, List.intercalate_singleton,
    List.filterMap_cons]
  cases itemOf? w <;> rfl

theorem standing_of_kind (h : t.kind ≠ .closing) : standing d t = d := by
  simp [standing, isCloseParen, h]

theorem after_of_kind (h : t.kind ≠ .opening) : after d t = d := by
  simp [after, isOpenParen, h]

theorem kind_of_isComma (h : t.isComma = true) : t.kind = .punctuation := by
  simp only [isComma, Bool.and_eq_true, decide_eq_true_eq] at h
  exact h.1

/-- A comma ends what was read. -/
theorem itemsFrom_comma (h : t.isComma = true) :
    itemsFrom c w 0 (t :: ts) = (itemOf? w).toList ++ (commaItems c ++ itemsFrom c [] 0 ts) := by
  have hk := kind_of_isComma h
  have hs : standing 0 t = 0 := standing_of_kind (by simp [hk])
  have hw : [w].filterMap itemOf? = (itemOf? w).toList := by
    rw [List.filterMap_cons]
    cases itemOf? w <;> rfl
  rw [itemsFrom, sections_cons_heading hs h, after_of_kind (by simp [hk]), List.map_cons,
    List.intercalate_cons_cons, piecesFrom_nil, hw, List.append_assoc]
  rfl

/-- `AND` and `OR` end a predicate and start the next one. -/
theorem itemsFrom_conjunction (hc : c.isPredicate = true) (h : isConjunction t = true) :
    itemsFrom c w 0 (t :: ts) = (itemOf? w).toList ++ itemsFrom c [t] 0 ts := by
  have hk : t.kind = .conjunction := by simpa [isConjunction] using h
  have hs : standing 0 t = 0 := standing_of_kind (by simp [hk])
  have ha : after 0 t = 0 := after_of_kind (by simp [hk])
  have hcomma : t.isComma = false := by simp [isComma, hk]
  have hp : ∀ x, piecesFrom c w 0 (t :: x) = w :: piecesFrom c [t] 0 x := by
    intro x
    rw [piecesFrom, piecesFrom, if_pos hc, if_pos hc, sections_cons_heading hs h, ha,
      List.append_nil]
    rfl
  have hq : sections isComma 0 (t :: ts) = ⟨t :: (sections isComma 0 ts).lead,
      (sections isComma 0 ts).parts⟩ := by
    rw [sections, hs, ha, hcomma]
    rfl
  simp only [itemsFrom, hq, hp, List.filterMap_cons]
  cases itemOf? w with
  | none => rfl
  | some x =>
    cases (sections isComma 0 ts).parts with
    | nil => rfl
    | cons p ps => rw [List.map_cons, List.intercalate_cons_cons, List.intercalate_cons_cons]; rfl

/-- Any other token belongs to what was read. -/
theorem itemsFrom_token (hcomma : standing d t = 0 → t.isComma = false)
    (hconj : standing d t = 0 → c.isPredicate = true → isConjunction t = false) :
    itemsFrom c w d (t :: ts) = itemsFrom c (w ++ [t]) (after (standing d t) t) ts := by
  have hp : ∀ x, piecesFrom c w d (t :: x) =
      piecesFrom c (w ++ [t]) (after (standing d t) t) x := by
    intro x
    rw [piecesFrom, piecesFrom, List.append_assoc, List.append_assoc]
    split
    · rename_i hc
      have hn : (standing d t = 0 && isConjunction t : Bool) = false := by
        by_cases h0 : standing d t = 0
        · simp [hconj h0 hc]
        · simp [h0]
      simp only [sections, hn]
      simp
    · rfl
  have hn : (standing d t = 0 && t.isComma : Bool) = false := by
    by_cases h0 : standing d t = 0
    · simp [hcomma h0]
    · simp [h0]
  simp only [itemsFrom, sections, hn, Bool.false_eq_true, if_false, hp]

theorem chapters_of_covered (h : Covered (·.opens seen) 0 ts) : chapters seen ts = ⟨ts, []⟩ := by
  rw [chapters]
  split
  · rfl
  · rename_i e
    obtain ⟨rfl, -, h₂, h₃⟩ := cutOutside_eq_some_iff.1 e
    have := (covered_cons.1 (covered_append.1 h).2).1 h₂
    rw [h₃] at this
    cases this

theorem chapters_append (h : Covered (·.opens seen) 0 w) (hd : standing (depthAfter 0 w) t = 0)
    (ht : t.clause? = some c) (hc : c ∉ seen) : chapters seen (w ++ t :: ts) =
      ⟨w, (t, (chapters (c :: seen) ts).lead) :: (chapters (c :: seen) ts).parts⟩ := by
  have hp : t.opens seen = true := by simp [Token.opens, ht, hc]
  have hcut : cutOutside (·.opens seen) (w ++ t :: ts) = some (w, t, ts) :=
    cutOutside_eq_some_iff.2 ⟨rfl, h, hd, hp⟩
  rw [chapters]
  split
  · rename_i e
    rw [hcut] at e
    cases e
  · rename_i lead u us e
    rw [hcut] at e
    obtain ⟨rfl, rfl, rfl⟩ : w = lead ∧ t = u ∧ ts = us := by simpa using e
    rw [ht]
    rfl

/-- Either no clause opens in the tokens, or they are cut at the keyword of the first one that does.
-/
theorem covered_or_opens (seen : List Clause) (ts : List Token) : Covered (·.opens seen) 0 ts ∨
    ∃ w t us c, ts = w ++ t :: us ∧ Covered (·.opens seen) 0 w ∧ standing (depthAfter 0 w) t = 0 ∧
      t.clause? = some c ∧ c ∉ seen := by
  cases h : cutOutside (·.opens seen) ts with
  | none =>
    left
    simp only [cutOutside] at h
    split at h
    · rename_i e
      rw [Covered, e]
    · cases h
  | some p =>
    obtain ⟨w, t, us⟩ := p
    obtain ⟨h₁, h₂, h₃, h₄⟩ := cutOutside_eq_some_iff.1 h
    right
    cases hc : t.clause? with
    | none => simp [Token.opens, hc] at h₄
    | some c => exact ⟨w, t, us, c, h₁, h₂, h₃, hc, by simpa [Token.opens, hc] using h₄⟩

end QueryTemplate
