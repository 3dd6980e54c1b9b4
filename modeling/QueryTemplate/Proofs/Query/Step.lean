import QueryTemplate.Proofs.Token.Depth
import QueryTemplate.Proofs.Token.Lexed
import QueryTemplate.Query.Parser
namespace QueryTemplate

open Token

/-- What is known of a token by what reading it means. -/
def Draft.Means (d : Draft) (t : Token) : Action → Prop
  | .skip => t.kind = .blank
  | .pushToken => t.kind ≠ .blank ∧ t.kind ≠ .comment ∧ t.kind ≠ .membership
  | .pushComment => t.kind = .comment
  | .openClause c => t.kind = .clause ∧ d.fragment.isBalanced = true ∧ c ≠ .unions
  | .readUnions => isUnionAll t = true ∧ d.fragment.isBalanced = true
  | .readJoin => t.kind = .join ∧ d.fragment.isBalanced = true
  | .readCall => t.kind = .aggregation ∧ d.fragment.isBalanced = true
  | .comma => t.isComma = true ∧ d.fragment.isBalanced = true
  | .sourceParen => t.isOpenParen = true ∧ d.fragment.isBalanced = true
  | .conjunction => t.kind = .conjunction
  | .membership => t.kind = .membership

theorem Clause.ofKeyword?_eq_unions {w : Text} : ofKeyword? w = some .unions ↔ w = "union all" := by
  constructor
  · intro h
    have := List.find?_some h
    exact (of_decide_eq_true this).symm
  · rintro rfl
    rfl

theorem Draft.means_action (d : Draft) (t : Token) : d.Means t (d.action t) := by
  have hc : ∀ {c}, Clause.ofKeyword? t.keyword = some c → t.kind = .clause → c = .unions →
      isUnionAll t = true := by
    rintro c h hk rfl
    simp [isUnionAll, isClause, hk, Clause.ofKeyword?_eq_unions.1 h]
  cases hk : t.kind with
  | clause =>
    simp only [action, hk]
    cases h : Clause.ofKeyword? t.keyword with
    | none => simp [Means, hk]
    | some c =>
      simp only
      split
      · simp [Means, hk]
      · rename_i ho
        have hf : d.fragment.isBalanced = true := by
          simpa using (Bool.or_eq_false_iff.1 (Bool.eq_false_iff.2 ho)).1
        split
        · exact ⟨hc h hk ‹_›, hf⟩
        · exact ⟨hk, hf, ‹_›⟩
  | join | aggregation =>
    simp only [action, hk]
    cases hf : d.fragment.isBalanced <;> simp [Means, hk, hf]
  | conjunction =>
    simp only [action, hk]
    cases hp : d.clause.isPredicate <;> simp [Means, hk]
  | punctuation =>
    simp only [action, hk]
    cases hf : d.fragment.isBalanced <;> cases ht : t.isComma <;> simp [Means, hk, hf, ht]
  | opening =>
    simp only [action, hk]
    cases hf : d.fragment.isBalanced <;> cases ht : t.isOpenParen <;> by_cases hd : d.clause =
      .source <;>
      simp [Means, hk, hf, ht, hd]
  | blank | comment | membership | identifier | string | number | operator | closing | placeholder
  | joinConstraint => simp [action, Means, hk]

/-- What reading the token `t` before the tokens `ts` leads to: the draft, and the tokens that are
left. -/
def Draft.step (rest : Text) (d : Draft) (t : Token) (ts : List Token) :
    Except Error (Draft × List Token) :=
  match d.action t with
  | .skip => .ok (d, ts)
  | .pushToken => .ok (d.pushToken t, ts)
  | .pushComment => .ok (d.pushComment t, ts)
  | .openClause c => .ok (d.openClause c, ts)
  | .comma => .ok (d.comma, ts)
  | .conjunction => .ok (d.conjunction t, ts)
  | .readUnions =>
    (atEnd rest ()).bind fun _ ↦ ((splitOutside isUnionAll ts).mapM fun b ↦
      parseTokens [] b {}).map fun branches ↦
      ({ d.flush with query := { d.flush.query with unions := some branches } }, [])
  | .readCall =>
    (callGroup t.text rest ts).bind fun p ↦ (parseTokens [] p.1 {}).map fun q ↦
      (d.flush.addCall t.text (.ofQuery q), p.2)
  | .sourceParen =>
    if !d.fragment.endsInTableFunction && !d.sourceIsEmpty then .ok (d.pushToken t, ts)
    else (group rest ts).bind fun p ↦
      if d.fragment.endsInTableFunction then .ok (d.pushText ('(' :: textOf p.1 ++ ")"), p.2)
      else (parseTokens [] p.1 {}).map fun q ↦ (d.setSubquery q, p.2)
  | .membership =>
    match ts.dropWhile isBlank with
    | [] => .ok (d.pushToken t, [])
    | o :: us =>
      if o.isOpenParen then
        (group rest us).bind fun p ↦ (parseTokens [] p.1 {}).map fun q ↦
          ((d.pushToken t).pushText (membershipText q), p.2)
      else .ok (d.pushToken t, o :: us)
  | .readJoin =>
    (Join.readSource t rest ts).bind fun p ↦
      match p.1 with
      | .arrays items => .ok (d.flush.addJoin { kind := t.keyword, source := .table items }, p.2)
      | .table name =>
        (Join.readTail { kind := t.keyword, source := .table [name] } rest p.2).map fun r ↦
          (d.flush.addJoin r.1, r.2)
      | .subquery body =>
        (parseTokens [] body {}).bind fun q ↦
          (Join.readTail { kind := t.keyword, source := .subquery q } rest p.2).map fun r ↦
            (d.flush.addJoin r.1, r.2)

variable {rest : Text} {t : Token} {ts : List Token} {d : Draft}

theorem Draft.push_fragment (x : Text) (d : Draft) : (d.push x).fragment = d.fragment := by
  rw [push]
  split <;> rfl

theorem Draft.flush_fragment (d : Draft) : d.flush.fragment = {} := by
  rw [flush]
  split
  · rfl
  · split
    · exact push_fragment _ _
    · rename_i x _ _
      cases h : pushToLast? x { d with fragment := {} } with
      | none => exact push_fragment _ _
      | some e =>
        simp only [pushToLast?, Option.bind_eq_bind, Option.bind_eq_some_iff] at h
        obtain ⟨_, -, _, -, _, -, he⟩ := h
        exact Option.some.inj he ▸ rfl

theorem Draft.flush_eq_self (h : d.fragment = {}) : d.flush = d := by
  obtain ⟨q, c, f⟩ := d
  obtain rfl : f = {} := h
  rfl

theorem parseTokens_nil : parseTokens rest [] d = atEnd rest d.flush.query := by rw [parseTokens]

theorem parseTokens_cons :
    parseTokens rest (t :: ts) d = (d.step rest t ts).bind fun p ↦ parseTokens rest p.2 p.1 := by
  rw [parseTokens, Draft.step]
  cases d.action t with
  | skip | pushToken | pushComment | openClause | comma | conjunction => rfl
  | readUnions =>
    have ha : ((splitOutside isUnionAll ts).attach.mapM fun b ↦ parseTokens [] b.1 {}) =
        (splitOutside isUnionAll ts).mapM fun b ↦ parseTokens [] b {} := by
      have := List.mapM_map (m := Except Error) (f := Subtype.val)
        (g := fun b ↦ parseTokens [] b {})
        (l := (splitOutside isUnionAll ts).attach)
      rw [List.attach_map_subtype_val] at this
      exact this.symm
    simp only [ha]
    by_cases hr : rest = []
    · subst hr
      cases (splitOutside isUnionAll ts).mapM fun b ↦ parseTokens [] b {} with
      | error e => rfl
      | ok qs =>
        have hf : ∀ q, Draft.flush { d.flush with query := q } = { d.flush with query := q } :=
          fun q ↦
          Draft.flush_eq_self d.flush_fragment
        simp only [Except.bind, Except.map, parseTokens_nil, atEnd, if_true, hf]
        rfl
    · simp only [atEnd, if_neg hr]
      rfl
  | readCall =>
    simp only
    split
    · rename_i e h
      rw [h]
      rfl
    · rename_i b us h
      rw [h]
      simp only [Except.bind]
      cases parseTokens [] b {} <;> rfl
  | sourceParen =>
    simp only
    split
    · rfl
    · split
      · rename_i e h
        rw [h]
        rfl
      · rename_i b us h
        rw [h]
        simp only [Except.bind]
        split
        · rfl
        · cases parseTokens [] b {} <;> rfl
  | membership =>
    simp only
    split
    · rename_i h
      rw [h]
      rfl
    · rename_i o us h
      rw [h]
      simp only
      split
      · split
        · rename_i e h
          rw [h]
          rfl
        · rename_i b us h
          rw [h]
          simp only [Except.bind]
          cases parseTokens [] b {} <;> rfl
      · rfl
  | readJoin =>
    simp only
    split
    · rename_i e h
      rw [h]
      rfl
    · rename_i items us h
      rw [h]
      rfl
    · rename_i name us h
      rw [h]
      simp only [Except.bind]
      split
      · rename_i e h
        rw [h]
        rfl
      · rename_i j us h
        rw [h]
        rfl
    · rename_i b us h
      rw [h]
      simp only [Except.bind]
      cases parseTokens [] b {} with
      | error e => rfl
      | ok q =>
        dsimp only [bind, Except.bind]
        split
        · rename_i e h
          rw [h]
          rfl
        · rename_i j us h
          rw [h]
          rfl

theorem parse_textOf (h : Lexed ts) : parse (textOf ts) = parseTokens [] ts {} := by
  rw [Lexed] at h
  simp only [parse, h]

theorem parseTokens_step {us : List Token} {d' : Draft} (h : d.step rest t ts = .ok (d', us)) :
    parseTokens rest (t :: ts) d = parseTokens rest us d' := by
  rw [parseTokens_cons, h]
  rfl

namespace LeavesAtMost

variable {α β : Type} {n : Nat} {r : Except Error β}

theorem of_bind {f : β → Except Error (α × List Token)} (h : ∀ b, LeavesAtMost n (f b)) :
    LeavesAtMost n (r.bind f) := by
  intro p e
  cases r with
  | error => cases e
  | ok b => exact h b p e

theorem of_map {f : β → α × List Token} (h : ∀ b, (f b).2.length ≤ n) :
    LeavesAtMost n (r.map f) := by
  intro p e
  cases r with
  | error => cases e
  | ok b => exact Except.ok.inj e ▸ h b

theorem callGroup (name rest : Text) (ts : List Token) :
    LeavesAtMost ts.length (callGroup name rest ts) := by
  intro p e
  have := callGroup_length e
  omega

end LeavesAtMost

theorem leaves_step : LeavesAtMost ts.length (d.step rest t ts) := by
  have hd := (List.dropWhile_suffix isBlank (l := ts)).length_le
  rw [Draft.step]
  cases d.action t with
  | skip | pushToken | pushComment | openClause | comma | conjunction => exact .ok (Nat.le_refl _)
  | readUnions => exact .of_bind fun _ ↦ .of_map fun _ ↦ Nat.zero_le _
  | readCall => exact (LeavesAtMost.callGroup _ _ _).bind fun p hp ↦ .of_map fun _ ↦ hp
  | sourceParen =>
    dsimp only
    split
    · exact .ok (Nat.le_refl _)
    · refine (LeavesAtMost.group _ _).bind fun p hp ↦ ?_
      split
      · exact .ok hp
      · exact .of_map fun _ ↦ hp
  | membership =>
    dsimp only
    split
    · exact .ok (Nat.zero_le _)
    · rename_i o us h
      rw [h, List.length_cons] at hd
      split
      · exact (LeavesAtMost.group _ _).bind fun p hp ↦ .of_map fun _ ↦ Nat.le_trans hp (by omega)
      · exact .ok hd
  | readJoin =>
    refine (Join.leaves_readSource _ _ _).bind fun p hp ↦ ?_
    split
    · exact .ok hp
    · exact .map ((Join.leaves_readTail _ _ _).mono hp)
    · exact .of_bind fun q ↦ .map ((Join.leaves_readTail _ _ _).mono hp)

theorem isBalanced_iff {f : Fragment} {d : Nat} (h : f.depth = d) :
    f.isBalanced = true ↔ d = 0 := by
  rw [Fragment.isBalanced, decide_eq_true_eq, h]
  omega

theorem depthRun_cons {f : Fragment} {d e : Nat} (h : depthRun d (t :: ts) = some e) :
    depthRun (after (standing d t) t) ts = some e ∧
      (f.depth = d → (f.pushToken t).depth = after (standing d t) t) := by
  simp only [depthRun] at h
  simp only [Fragment.pushToken, after, standing]
  split at h
  · rename_i ho
    rw [isCloseParen_of_isOpenParen ho]
    simp only [ho, Bool.false_eq_true, if_true, if_false]
    exact ⟨h, fun hd ↦ by omega⟩
  · rename_i ho
    simp only [ho, Bool.false_eq_true, if_false]
    split at h
    · rename_i hc
      rw [hc]
      cases d with
      | zero => cases h
      | succ d =>
        simp only [if_true]
        exact ⟨h, fun hd ↦ by omega⟩
    · rename_i hc
      simp only [hc, Bool.false_eq_true, if_false]
      exact ⟨h, id⟩

theorem covered_group {q : Token → Bool} {d : Nat} {o e : Token} {b : List Token}
    (ho : o.isOpenParen = true) (he : e.isCloseParen = true) (hb : Balanced b)
    (h : Covered q d (o :: (b ++ e :: ts))) : Covered q d ts := by
  have hd := depthAfter_of_depthRun (depthRun_add hb (d + 1))
  rw [Nat.zero_add] at hd
  have h := (covered_cons.1 h).2
  rw [after, if_pos ho, standing, if_neg (by simp [isCloseParen_of_isOpenParen ho]), covered_append,
    hd, covered_cons, after, if_neg (by simp [isOpenParen_of_isCloseParen he]), standing,
    if_pos he] at h
  exact h.2.2

theorem depthRun_blanks {d : Nat} {gs : List Token} (h : ∀ u ∈ gs, u.isBlank = true) :
    depthRun d gs = some d := by
  induction gs with
  | nil => rfl
  | cons t gs ih =>
    have ht : t.kind = .blank := by simpa [Token.isBlank] using h t List.mem_cons_self
    simp only [depthRun, isOpenParen, isCloseParen, ht]
    exact ih fun u hu ↦ h u (List.mem_cons_of_mem _ hu)

end QueryTemplate
