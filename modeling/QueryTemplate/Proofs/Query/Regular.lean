import QueryTemplate.Proofs.Token.Solid
import QueryTemplate.Proofs.Token.Relaid
import QueryTemplate.Query.Parser
namespace QueryTemplate

open Token Fragment

/-- A token whose text the parser puts into an item as it is and finds again there. -/
def Plain (t : Token) : Prop :=
  t.kind ≠ .comment ∧ t.kind ≠ .aggregation ∧ t.kind ≠ .join ∧
    (t.kind = .operator → t.text ≠ ['!']) ∧
    (t.kind = .number → t.text.head? ≠ some '.' ∧ t.text.getLast? ≠ some '.')

/-- A token that an item holds as it is: of a join phrase too, where parentheses enclose it. -/
def Steady (t : Token) : Prop :=
  t.kind ≠ .comment ∧ t.kind ≠ .aggregation ∧ (t.kind = .operator → t.text ≠ ['!']) ∧
    (t.kind = .number → t.text.head? ≠ some '.' ∧ t.text.getLast? ≠ some '.')

theorem Plain.steady {t : Token} (h : Plain t) : Steady t := ⟨h.1, h.2.1, h.2.2.2⟩

/-- A token that the spaces of an expression keep apart from others, a macro too. -/
def Neat (t : Token) : Prop :=
  t.kind ≠ .comment ∧ (t.kind = .operator → t.text ≠ ['!']) ∧
    (t.kind = .number → t.text.head? ≠ some '.' ∧ t.text.getLast? ≠ some '.')

theorem Steady.neat {t : Token} (h : Steady t) : Neat t := ⟨h.1, h.2.2⟩

def isPoint (t : Token) : Bool := t.kind = .operator && t.text = ['.']

/-- Not a number and a point. -/
def Apart (t u : Token) : Prop :=
  (t.kind = .number → isPoint u = false) ∧ (u.kind = .number → isPoint t = false)

instance (t : Token) : Decidable (Plain t) := inferInstanceAs (Decidable (_ ∧ _))

instance (t : Token) : Decidable (Steady t) := inferInstanceAs (Decidable (_ ∧ _))

instance (t : Token) : Decidable (Neat t) := inferInstanceAs (Decidable (_ ∧ _))

instance (t u : Token) : Decidable (Apart t u) := inferInstanceAs (Decidable (_ ∧ _))

/-- No number is next to a point, but for blanks between them; `p` is the token before. -/
def PointsApart (p : Option Token) : List Token → Prop
  | [] => True
  | t :: ts => if t.isBlank then PointsApart p ts else (∀ q ∈ p, Apart q t) ∧
      PointsApart (some t) ts

instance PointsApart.decide : (p : Option Token) → (ts : List Token) → Decidable (PointsApart p ts)
  | _, [] => isTrue trivial
  | p, t :: ts =>
    have := PointsApart.decide p ts
    have := PointsApart.decide (some t) ts
    inferInstanceAs (Decidable (if t.isBlank then _ else _))

section

variable {p : Option Token} {t : Token} {ts : List Token}

theorem pointsApart_blank (h : t.isBlank = true) : PointsApart p (t :: ts) ↔ PointsApart p ts := by
  rw [PointsApart, if_pos h]

theorem pointsApart_cons (h : t.isBlank = false) :
    PointsApart p (t :: ts) ↔ (∀ q ∈ p, Apart q t) ∧ PointsApart (some t) ts := by
  rw [PointsApart, if_neg (by simp [h])]

theorem PointsApart.drop {a : List Token} (h : PointsApart p (a ++ t :: ts))
    (ht : t.isBlank = false) :
    PointsApart (some t) ts := by
  induction a generalizing p with
  | nil => exact ((pointsApart_cons ht).1 h).2
  | cons u a ih =>
    cases hu : u.isBlank with
    | true => exact ih ((pointsApart_blank hu).1 h)
    | false => exact ih ((pointsApart_cons hu).1 h).2

theorem PointsApart.none (h : PointsApart p ts) : PointsApart none ts := by
  induction ts with
  | nil => trivial
  | cons t ts ih =>
    cases ht : t.isBlank with
    | true => exact (pointsApart_blank ht).2 (ih ((pointsApart_blank ht).1 h))
    | false => exact (pointsApart_cons ht).2 ⟨nofun, ((pointsApart_cons ht).1 h).2⟩

theorem PointsApart.left {a b : List Token} (h : PointsApart p (a ++ b)) : PointsApart p a := by
  induction a generalizing p with
  | nil => trivial
  | cons t a ih =>
    cases ht : t.isBlank with
    | true => exact (pointsApart_blank ht).2 (ih ((pointsApart_blank ht).1 h))
    | false =>
      obtain ⟨h₁, h₂⟩ := (pointsApart_cons ht).1 h
      exact (pointsApart_cons ht).2 ⟨h₁, ih h₂⟩

theorem PointsApart.right {a b : List Token} (h : PointsApart p (a ++ b)) :
    PointsApart .none b := by
  induction a generalizing p with
  | nil => exact h.none
  | cons t a ih =>
    cases ht : t.isBlank with
    | true => exact ih ((pointsApart_blank ht).1 h)
    | false => exact ih ((pointsApart_cons ht).1 h).2

end

def isHeading (t : Token) : Bool := t.kind = .clause

/-- A token that ends a clause outside of parentheses. -/
def isBreak (t : Token) : Bool := t.kind = .clause || t.kind = .join

/-- What the parenthesis that comes next encloses, and what follows it. -/
def groupAhead (ts : List Token) : Option (List Token × List Token) :=
  match ts.dropWhile isBlank with
  | [] => none
  | o :: us => if o.isOpenParen then closing? 0 us else none

theorem groupAhead_length {ts b us : List Token} (h : groupAhead ts = some (b, us)) :
    b.length + us.length + 2 ≤ ts.length := by
  have hl := (List.dropWhile_suffix isBlank (l := ts)).length_le
  rw [groupAhead] at h
  split at h
  · cases h
  · rename_i o vs e
    rw [e, List.length_cons] at hl
    split at h
    · obtain ⟨t, -, rfl⟩ := closing?_eq_some h
      simp only [List.length_append, List.length_cons] at hl
      omega
    · cases h

theorem groupAhead_eq_some {ts b us : List Token} (h : groupAhead ts = some (b, us)) :
    ∃ gs o e, ts = gs ++ o :: (b ++ e :: us) ∧ (∀ u ∈ gs, u.isBlank = true) ∧ o.isOpenParen = true ∧
      e.isCloseParen = true ∧ Balanced b := by
  have hl := List.takeWhile_append_dropWhile (p := isBlank) (l := ts)
  rw [groupAhead] at h
  split at h
  · cases h
  · rename_i o vs e
    rw [e] at hl
    split at h
    · obtain ⟨hb, x, hx, rfl⟩ := depthRun_of_closing? h
      exact ⟨_, o, x, hl.symm, List.all_eq_true.1 List.all_takeWhile, ‹_›, hx, hb⟩
    · cases h

/-- The bodies of `IN` that open a clause, but for those in bodies of their kind and in the calls of
table functions. The tokens are in `FROM` if `source` holds, at the depth `d`, after the word
`last`. -/
def innerLevels (source : Bool) (d : Nat) (last : Text) : List Token → List (List Token)
  | [] => []
  | t :: ts =>
    if t.isBlank then innerLevels source d last ts
    else if t.kind = .membership then
      match _h : groupAhead ts with
      | some (b, us) =>
        (if Covered isHeading 0 b then innerLevels false 0 [] b else [b]) ++
            innerLevels source d [] us
      | none => innerLevels source d (trailingWord t.text) ts
    else if source && d = 0 && t.isOpenParen && tableFunctions.contains last then
      match _h : closing? 0 ts with
      | some (_, us) => innerLevels source d [] us
      | none => []
    else innerLevels source (after (standing d t) t) (trailingWord t.text) ts
termination_by ts => ts.length
decreasing_by
  all_goals simp_wf
  · have := groupAhead_length _h
    omega
  · have := groupAhead_length _h
    omega
  · obtain ⟨e, -, rfl⟩ := closing?_eq_some _h
    simp only [List.length_append, List.length_cons]
    omega

section

variable {source : Bool} {d : Nat} {last : Text} {t : Token} {ts b us : List Token}

theorem innerLevels_blank (h : t.isBlank = true) :
    innerLevels source d last (t :: ts) = innerLevels source d last ts := by
  rw [innerLevels, if_pos h]

theorem innerLevels_member (hk : t.kind = .membership) (h : groupAhead ts = some (b, us)) :
    innerLevels source d last (t :: ts) =
      (if Covered isHeading 0 b then innerLevels false 0 [] b else [b]) ++
          innerLevels source d [] us := by
  rw [innerLevels, if_neg (by simp [Token.isBlank, hk]), if_pos hk]
  split
  · rename_i e
    rw [h] at e
    obtain ⟨rfl, rfl⟩ := Prod.mk.inj (Option.some.inj e)
    rfl
  · rename_i e
    rw [h] at e
    cases e

theorem innerLevels_alone (hk : t.kind = .membership) (h : groupAhead ts = none) :
    innerLevels source d last (t :: ts) = innerLevels source d (trailingWord t.text) ts := by
  rw [innerLevels, if_neg (by simp [Token.isBlank, hk]), if_pos hk]
  split
  · rename_i e
    rw [h] at e
    cases e
  · rfl

theorem innerLevels_raw (ho : t.isOpenParen = true) (hl : tableFunctions.contains last = true)
    (h : closing? 0 ts = some (b, us)) :
    innerLevels true 0 last (t :: ts) = innerLevels true 0 [] us := by
  have hk : t.kind = .opening := by
    simp only [isOpenParen, Bool.and_eq_true, decide_eq_true_eq] at ho
    exact ho.1
  rw [innerLevels, if_neg (by simp [Token.isBlank, hk]), if_neg (by simp [hk]),
    if_pos (by rw [ho, hl]; rfl)]
  split
  · rename_i e
    rw [h] at e
    obtain ⟨rfl, rfl⟩ := Prod.mk.inj (Option.some.inj e)
    rfl
  · rename_i e
    rw [h] at e
    cases e

theorem innerLevels_token (hb : t.kind ≠ .blank) (hk : t.kind ≠ .membership)
    (h : source = true → d = 0 → t.isOpenParen = true → tableFunctions.contains last = false) :
    innerLevels source d last (t :: ts) =
      innerLevels source (after (standing d t) t) (trailingWord t.text) ts := by
  rw [innerLevels, if_neg (by simp [Token.isBlank, hb]), if_neg hk, if_neg]
  intro e
  simp only [Bool.and_eq_true, decide_eq_true_eq] at e
  rw [h e.1.1.1 e.1.1.2 e.1.2] at e
  cases e.2

end

/-- The tokens of a statement before its first `UNION ALL`. -/
def ownTokens (ts : List Token) : List Token :=
  match cutOutside isUnionAll ts with
  | some (a, _) => a
  | none => ts

/-- The statements after the first `UNION ALL`. -/
def unionBranches (ts : List Token) : List (List Token) :=
  match cutOutside isUnionAll ts with
  | some (_, _, b) => splitOutside isUnionAll b
  | none => []

/-- The clause keywords of a statement, each with the tokens after it. -/
def clauseParts (ts : List Token) : List (Token × List Token) :=
  (sections isHeading 0 (ownTokens ts)).parts

/-- What is read as a query of its own in a clause. -/
def partLevels (p : Token × List Token) : List (List Token) :=
  if p.1.keyword = "from".toList then
    match groupAhead p.2 with
    | some (b, us) => b :: innerLevels false 0 [] us
    | none => innerLevels true 0 [] p.2
  else innerLevels false 0 [] p.2

/-- What is read as a query of its own in a statement. -/
def subLevels (ts : List Token) : List (List Token) :=
  (clauseParts ts).flatMap partLevels ++ unionBranches ts

/-- The keywords in the order in which a statement has them. -/
def clauseOrder : List Text := ["with", "select", "from", "prewhere", "where", "group by", "having",
  "order by", "limit", "format"]

/-- The clauses of a statement are those of one `SELECT` in their order. -/
structure RegularClauses (ts : List Token) : Prop where
  lead : ∀ t ∈ (sections isHeading 0 (ownTokens ts)).lead, t.isBlank = true
  first : ∃ p ∈ (clauseParts ts).head?, p.1.keyword = "select".toList ∨ p.1.keyword = "with".toList
  order : ((clauseParts ts).map (·.1.keyword)).Sublist clauseOrder
  union : unionBranches ts = [] ∨ ∀ p ∈ clauseParts ts, p.1.keyword ≠ "format".toList
  comma : ∀ p ∈ clauseParts ts, ∀ t ∈ (p.2.dropWhile isBlank).head?, t.isComma = false
  select : ∀ p ∈ clauseParts ts, p.1.keyword = "select".toList → p.2.dropWhile isBlank ≠ []
  prewhere : ∀ p ∈ clauseParts ts, p.1.keyword = "prewhere".toList → Covered isComma 0 p.2
  aliases : ∀ p ∈ clauseParts ts, p.1.keyword = "from".toList →
    ∀ x ∈ groupAhead p.2, Covered isComma 0 x.2

instance (ts : List Token) : Decidable (RegularClauses ts) :=
  have h : _ ∧ _ ∧ _ ∧ _ ∧ _ ∧ _ ∧ _ ∧ _ ↔ RegularClauses ts :=
    ⟨fun h ↦ ⟨h.1, h.2.1, h.2.2.1, h.2.2.2.1, h.2.2.2.2.1, h.2.2.2.2.2.1, h.2.2.2.2.2.2.1,
      h.2.2.2.2.2.2.2⟩,
      fun ⟨h₁, h₂, h₃, h₄, h₅, h₆, h₇, h₈⟩ ↦ ⟨h₁, h₂, h₃, h₄, h₅, h₆, h₇, h₈⟩⟩
  decidable_of_decidable_of_iff h

/-- A statement whose clauses are in order, as are those of all that is read as a query in it. -/
inductive RegularLevel : List Token → Prop
  | mk {ts} (clauses : RegularClauses ts) (levels : ∀ b ∈ subLevels ts, RegularLevel b) :
    RegularLevel ts

/-- The tokens of a query that a printer writes anew without changing what it says. -/
structure Regular (ts : List Token) : Prop where
  plain : ∀ t ∈ ts, Plain t
  apart : PointsApart none ts
  balanced : Balanced ts
  level : RegularLevel ts

end QueryTemplate
