import QueryTemplate.Proofs.Filter.Fill
import QueryTemplate.Proofs.Token.Call
import QueryTemplate.Proofs.Token.Split
namespace QueryTemplate

open Token Grammar

variable {vs : List Variable} {name s t r w x reference : Text} {as bs : List Text} {c : Call} {n : Nat}
  {e : Error}

theorem Text.bytes_le_of_sublist (h : r.Sublist s) : Text.bytes r ≤ Text.bytes s := by
  induction h with
  | slnil => exact Nat.le_refl _
  | cons c _ ih =>
    rw [Text.bytes_cons]
    omega
  | cons_cons c _ ih =>
    rw [Text.bytes_cons, Text.bytes_cons]
    omega

theorem resolveConditionals_of_error (h : findCall s conditionalName = .error e) :
    resolveConditionals vs s = .error e := by
  rw [resolveConditionals]
  split <;> simp_all

theorem resolveConditionals_of_call (h : findCall s conditionalName = .ok (some c)) :
    resolveConditionals vs s =
      (chooseBranch vs c.args).bind fun r ↦ resolveConditionals vs (c.before ++ r ++ c.after) := by
  rw [resolveConditionals]
  split
  · simp_all
  · simp_all
  · rename_i c' h'
    obtain rfl := Option.some.inj (Except.ok.inj (h.symm.trans h'))
    split <;> simp_all [Except.bind]

/-- A part of the arguments in place of a call leaves a part of the text. -/
theorem sublist_of_findCall (h : findCall s name = .ok (some c)) (hr : r.Sublist c.args) :
    (c.before ++ r ++ c.after).Sublist s := by
  obtain ⟨a, hs, b, e, us, hts, hh, -, -, rfl⟩ := tokens_of_findCall h
  obtain ⟨n, gs, o, rfl, -⟩ := hh.call
  have hs := textOf_scan s
  rw [hts] at hs
  generalize (scan s).rest = q at hs ⊢
  subst hs
  simp only [textOf_append, textOf_cons, textOf_nil, List.append_assoc, List.append_nil]
  refine (List.Sublist.refl _).append (.trans ?_ (List.sublist_append_right n.text _))
  refine .trans ?_ (List.sublist_append_right (textOf gs) _)
  refine .trans ?_ (List.sublist_append_right o.text _)
  exact hr.append (List.sublist_append_right e.text _)

/-- In `n` steps the first conditional is replaced by the argument that it selects. -/
inductive Resolving (vs : List Variable) : Nat → Text → Text → Prop
  | done (s : Text) : Resolving vs 0 s s
  | step {n : Nat} {s r t : Text} {c : Call} : findCall s conditionalName = .ok (some c) →
      chooseBranch vs c.args = .ok r → Resolving vs n (c.before ++ r ++ c.after) t → Resolving vs (n + 1) s t

/-- What is made of a text in which no conditional can be replaced. -/
inductive Settles (vs : List Variable) (t : Text) : Except Error Text → Prop
  | resolved : findCall t conditionalName = .ok none → Settles vs t (.ok t)
  | unreadable {e : Error} : findCall t conditionalName = .error e → Settles vs t (.error e)
  | undecided {e : Error} {c : Call} : findCall t conditionalName = .ok (some c) →
      chooseBranch vs c.args = .error e → Settles vs t (.error e)

theorem Resolving.sublist (h : Resolving vs n s t) : t.Sublist s := by
  induction h with
  | done s => exact .refl s
  | step hc hr _ ih => exact ih.trans (sublist_of_findCall hc (chooseBranch_sublist hr))

/-- Each step makes the text shorter, and the last text settles the answer. -/
theorem resolveConditionals_run (vs : List Variable) (s : Text) :
    ∃ n t, n + t.length ≤ s.length ∧ Resolving vs n s t ∧ Settles vs t (resolveConditionals vs s) := by
  induction hl : s.length using Nat.strongRecOn generalizing s with
  | ind l ih =>
    cases hc : findCall s conditionalName with
    | error e =>
      refine ⟨0, s, by omega, .done s, ?_⟩
      rw [resolveConditionals_of_error hc]
      exact .unreadable hc
    | ok o =>
      cases o with
      | none =>
        refine ⟨0, s, by omega, .done s, ?_⟩
        rw [resolveConditionals_of_findCall hc]
        exact .resolved hc
      | some c =>
        rw [resolveConditionals_of_call hc]
        cases hr : chooseBranch vs c.args with
        | error e => exact ⟨0, s, by omega, .done s, .undecided hc hr⟩
        | ok r =>
          have hlt := findCall_length hc
          have hle := (chooseBranch_sublist hr).length_le
          have hnext : (c.before ++ r ++ c.after).length < l := by
            simp only [List.length_append]
            omega
          obtain ⟨n, t, hn, hrun, hsettles⟩ := ih _ hnext _ rfl
          exact ⟨n + 1, t, by omega, .step hc hr hrun, hsettles⟩

theorem nameOf_trim (s : Text) : Reference.nameOf (Text.trim s) = Reference.nameOf s := by
  simp only [Reference.nameOf, (solid_trim s).trim]

/-- A text with a comma is not blank. -/
theorem trim_argumentList (h : bs ≠ []) : Text.trim (argumentList as x bs) ≠ [] := by
  obtain ⟨b, bs, rfl⟩ := List.exists_cons_of_ne_nil h
  exact trim_ne_nil (a := ',') (by simp [argumentList]) (by decide)

/-- Of two texts only the one that is selected counts. -/
theorem choose_congr {a a' b b' : Text}
    (h : ∀ v, findVariable vs (Reference.nameOf reference) = some v →
      (if v.isSet then a else b) = if v.isSet then a' else b') :
    chooseBranch.choose vs a b reference = chooseBranch.choose vs a' b' reference := by
  simp only [chooseBranch.choose]
  split
  · rw [h _ ‹_›]
  · rfl

/-- The arguments before and after one of a conditional that its variable does not select: the first one
if the variable is not set, the second one of three if it is set. -/
inductive Passed (vs : List Variable) : List Text → List Text → Prop
  | first (ifEmpty : Option Text) (reference : Text) :
      (∀ v, findVariable vs (Reference.nameOf reference) = some v → v.isSet = false) →
      Passed vs [] (ifEmpty.toList ++ [reference])
  | second (ifSet reference : Text) :
      (∀ v, findVariable vs (Reference.nameOf reference) = some v → v.isSet = true) →
      Passed vs [ifSet] [reference]

/-- An argument that is not selected does not count. -/
theorem chooseBranch_congr (hp : Passed vs as bs)
    (h : splitText isComma (argumentList as x bs) = .ok (as ++ x :: bs))
    (h' : splitText isComma (argumentList as w bs) = .ok (as ++ w :: bs)) :
    chooseBranch vs (argumentList as w bs) = chooseBranch vs (argumentList as x bs) := by
  have hne : bs ≠ [] := by cases hp <;> simp
  have hsplit := splitArguments_of_splitText h (trim_argumentList hne)
  have hsplit' := splitArguments_of_splitText h' (trim_argumentList hne)
  rw [chooseBranch, chooseBranch, hsplit, hsplit']
  cases hp with
  | first ifEmpty reference hv =>
    rw [← nameOf_trim] at hv
    cases ifEmpty <;> exact choose_congr fun v h ↦ by simp [hv v h]
  | second ifSet reference hv =>
    rw [← nameOf_trim] at hv
    exact choose_congr fun v h ↦ by simp [hv v h]

/-- The argument `x` of the first conditional of a text, between `head` and `tail`, is not selected. -/
def Unselected (vs : List Variable) (s head x tail : Text) : Prop :=
  ∃ (c : Call) (opening : Text) (as bs : List Text), findCall s conditionalName = .ok (some c) ∧
    s = opening ++ c.args ++ ')' :: c.after ∧ splitText isComma c.args = .ok (as ++ x :: bs) ∧
    Passed vs as bs ∧ head = opening ++ as.flatMap (· ++ [',']) ∧
    tail = bs.flatMap (',' :: ·) ++ ')' :: c.after

/-- Conditionals are replaced until none is left, and each step shortens the text. What stands in place
of an argument that is not selected does not count, if it can be an argument and ends no comment that is
opened ahead of it. -/
theorem conditionals_resolve (vs : List Variable) (s : Text) :
    (∃ n t, n + t.length ≤ s.length ∧ Resolving vs n s t ∧ Settles vs t (resolveConditionals vs s)) ∧
      (∀ r, resolveConditionals vs s = .ok r →
        findCall r conditionalName = .ok none ∧ r.Sublist s ∧ Text.bytes r ≤ Text.bytes s) ∧
      (findCall s conditionalName = .ok none → resolveConditionals vs s = .ok s) ∧
      ∀ head x tail w ws, Unselected vs s head x tail → tokens? w = .ok ws → IsArgument ws →
        (opensComment (scan head).tokens = true → ¬ "*/".toList <:+: w) →
        s = head ++ x ++ tail ∧ resolveConditionals vs (head ++ w ++ tail) = resolveConditionals vs s := by
  refine ⟨resolveConditionals_run vs s, fun r hr ↦ ?_, resolveConditionals_of_findCall, ?_⟩
  · obtain ⟨n, t, -, hrun, hsettles⟩ := resolveConditionals_run vs s
    rw [hr] at hsettles
    cases hsettles with
    | resolved ht => exact ⟨ht, hrun.sublist, Text.bytes_le_of_sublist hrun.sublist⟩
  · rintro head x tail w ws ⟨c, opening, as, bs, hc, hs, hx, hp, rfl, rfl⟩ hws hw ho
    have hnone : opensComment (scan (opening ++ as.flatMap (· ++ [',']))).tokens = true → commentEnd w = none := by
      intro h
      rw [← Option.not_isSome_iff_eq_none, Option.isSome_iff_exists]
      rintro ⟨q, hq⟩
      obtain ⟨y, rfl⟩ := commentEnd_eq_some hq
      exact ho h ⟨y, q, rfl⟩
    obtain ⟨hargs, hfind, hsplit⟩ := findCall_exchange hc hs hx hws hw hnone
    have around : ∀ y, opening ++ as.flatMap (· ++ [',']) ++ y ++ (bs.flatMap (',' :: ·) ++ ')' :: c.after) =
        opening ++ argumentList as y bs ++ ')' :: c.after := by simp [argumentList]
    refine ⟨by rw [around, ← hargs, hs], ?_⟩
    rw [hargs] at hx
    rw [around, resolveConditionals_of_call hfind, resolveConditionals_of_call hc, hargs,
      chooseBranch_congr hp hx hsplit]

theorem conditionals_resolve_lazily :
    let vs : List Variable := [{ name := "v" }]
    let s : Text := "x $conditionalTest(y, 1, $v)"
    let w : Text := "$conditionalTest(a, $u)"
    Unselected vs s "x $conditionalTest(" "y" ", 1, $v)" ∧ resolveConditionals vs s = .ok "x 1" ∧
      resolveConditionals vs ("x $conditionalTest(" ++ w ++ ", 1, $v)") = .ok "x 1" := by
  intro vs s w
  have hc : findCall s conditionalName = .ok (some ⟨"x ", "y, 1, $v", ""⟩) :=
    toOption_eq_some.1 (by decide +kernel)
  have hx : splitText isComma "y, 1, $v" = .ok ["y", " 1", " $v"] := toOption_eq_some.1 (by decide +kernel)
  have hu : Unselected vs s "x $conditionalTest(" "y" ", 1, $v)" := by
    refine ⟨_, "x $conditionalTest(", [], [" 1", " $v"], hc, by decide, hx,
      .first (some " 1") " $v" fun v h ↦ ?_, by decide, by decide⟩
    obtain rfl := Option.some.inj h
    rfl
  let ws : List Token := [⟨.placeholder, "$conditionalTest"⟩, ⟨.opening, "("⟩, ⟨.identifier, "a"⟩, comma, space,
    ⟨.placeholder, "$u"⟩, ⟨.closing, ")"⟩]
  have hws : tokens? w = .ok ws := tokens?_eq_ok_iff.2 ⟨rfl, by decide +kernel⟩
  have hw : IsArgument ws := ⟨by decide, by decide, by decide, by decide⟩
  have hs : resolveConditionals vs s = .ok "x 1" := by
    rw [resolveConditionals_of_call hc]
    exact toOption_eq_some.1 (by decide +kernel)
  have hhead : opensComment (scan "x $conditionalTest(").tokens = false := by decide +kernel
  obtain ⟨-, h⟩ := (conditionals_resolve vs s).2.2.2 _ _ _ w ws hu hws hw fun h ↦ by
    rw [hhead] at h
    cases h
  exact ⟨hu, hs, h.trans hs⟩

/-- A text that is not selected counts if it ends a comment: the call is then a part of the comment. -/
theorem unselected_comment_end :
    let vs : List Variable := [{ name := "v", current := .text "1" }]
    let head : Text := "a /* $conditionalTest(x,"
    let tail : Text := ", $v)"
    let ws : List Token := [space, ⟨.identifier, "b"⟩, space, ⟨.operator, "*"⟩, ⟨.operator, "/"⟩, space,
      ⟨.identifier, "c"⟩]
    Unselected vs (head ++ " y" ++ tail) head " y" tail ∧ tokens? " b */ c" = .ok ws ∧ IsArgument ws ∧
      Text.trim " b */ c" ≠ [] ∧ resolveConditionals vs (head ++ " y" ++ tail) = .ok "a /* x" ∧
      resolveConditionals vs (head ++ " b */ c" ++ tail) = .ok "a /* $conditionalTest(x, b */ c, $v)" ∧
      resolveConditionals vs (head ++ " b */ c" ++ tail) ≠ resolveConditionals vs (head ++ " y" ++ tail) := by
  intro vs head tail ws
  have hc : findCall (head ++ " y" ++ tail) conditionalName = .ok (some ⟨"a /* ", "x, y, $v", ""⟩) :=
    toOption_eq_some.1 (by decide +kernel)
  have hx : splitText isComma "x, y, $v" = .ok ["x", " y", " $v"] := toOption_eq_some.1 (by decide +kernel)
  have hu : Unselected vs (head ++ " y" ++ tail) head " y" tail := by
    refine ⟨_, "a /* $conditionalTest(", ["x"], [" $v"], hc, by decide, hx,
      .second "x" " $v" fun v h ↦ ?_, by decide, by decide⟩
    obtain rfl := Option.some.inj h
    rfl
  have hold : resolveConditionals vs (head ++ " y" ++ tail) = .ok "a /* x" := by
    rw [resolveConditionals_of_call hc]
    exact toOption_eq_some.1 (by decide +kernel)
  have hnew : resolveConditionals vs (head ++ " b */ c" ++ tail) = .ok "a /* $conditionalTest(x, b */ c, $v)" :=
    resolveConditionals_of_findCall (toOption_eq_some.1 (by decide +kernel))
  refine ⟨hu, tokens?_eq_ok_iff.2 ⟨rfl, by decide +kernel⟩, ⟨by decide, by decide, by decide, by decide⟩,
    by decide, hold, hnew, fun h ↦ ?_⟩
  rw [hold, hnew] at h
  exact absurd (Except.ok.inj h) (by decide)

end QueryTemplate
