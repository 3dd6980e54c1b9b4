import QueryTemplate.Filter.Basic
import QueryTemplate.Proofs.Query.Passes
namespace QueryTemplate

open Token Draft

variable {rest s s' : Text} {q q' : Query} {c : Token} {a b x y ts : List Token} {d : Draft}

/-- A place between tokens at which a comment leaves the target alone. In `FROM`, none of them comes
before the end of the first word. -/
inductive Clear : List Token → List Token → Prop
  /-- Before `FROM`. -/
  | before {a b : List Token} {d : Draft} (h : Passes {} a d) (hs : d.query.source = none) :
    Clear a b
  /-- Before `FROM`, in the parentheses after `IN` or a macro. -/
  | enclosed {a b gs x y : List Token} {t o e : Token} {d : Draft} (h : Passes {} a d)
    (hs : d.query.source = none)
    (ht : t.kind = .membership ∨ t.kind = .aggregation ∧ d.fragment.isBalanced = true)
    (hg : ∀ g ∈ gs, g.isBlank = true) (ho : o.isOpenParen = true) (he : e.isCloseParen = true)
    (hb : Balanced (x ++ y)) : Clear (a ++ t :: (gs ++ o :: x)) (y ++ e :: b)
  /-- After the first word in `FROM`, if nothing more belongs to it. -/
  | word {a b : List Token} {d : Draft} {w : Text} (h : Passes {} a d) (hc : d.clause = .source)
    (hs : d.query.source = some (.table [])) (hw : (Text.words d.fragment.text).head? = some w)
    (hq : ∀ q, parseTokens [] (a ++ b) {} = .ok q → q.anchor? = some (.word w)) : Clear a b
  /-- Anywhere after what tells the target. -/
  | past {a b x : List Token} {r : Anchor} (h : Told a r) : Clear (a ++ x) b
  /-- At such a place of the subquery in `FROM`. -/
  | subquery {a b x y : List Token} {o e : Token} {d : Draft} (h : Passes {} a d)
    (hc : d.clause = .source) (hs : d.query.source = some (.table [])) (hf : d.fragment = {})
    (ho : o.isOpenParen = true) (he : e.isCloseParen = true) (hb : Balanced (x ++ y))
    (hx : Clear x y) : Clear (a ++ o :: x) (y ++ e :: b)

theorem balanced_comment (hc : c.kind = .comment) (hb : Balanced (x ++ y)) :
    Balanced (x ++ c :: y) := by
  have hcons : ∀ n, depthRun n (c :: y) = depthRun n y := fun n ↦ by
    simp [depthRun, isOpenParen, isCloseParen, hc]
  rw [Balanced, depthRun_append] at hb ⊢
  simpa only [hcons] using hb

theorem step_comment (hc : c.kind = .comment) :
    d.step rest c ts = .ok (d.pushComment c, ts) := by
  have ha : d.action c = .pushComment := by simp [action, hc]
  rw [Draft.step, ha]

/-- A comment at a clear place leaves the target alone. -/
theorem Clear.resolve? (h : Clear a b) (hc : c.kind = .comment)
    (hq : parseTokens [] (a ++ b) {} = .ok q) (hq' : parseTokens [] (a ++ c :: b) {} = .ok q')
    (database table : Text) :
    Target.resolve? q' database table = Target.resolve? q database table := by
  have hopened : ∀ {a d}, Passes {} a d → d.Opened := fun h ↦ h.opened .empty
  induction h generalizing q q' with
  | @before a b d h hs =>
    rw [h.parse] at hq hq'
    have habreast : d.Abreast (d.pushComment c) :=
      .of_depth (f := d.fragment) ((hopened h).clause_ne_source hs) rfl
    obtain ⟨q'', hq'', hsource⟩ := habreast.parse (hopened h) hq
    rw [parseTokens_step (step_comment hc), hq''] at hq'
    obtain rfl := Except.ok.inj hq'
    rw [Target.resolve?_eq, Query.anchor?_congr hsource, ← Target.resolve?_eq]
  | @enclosed a b gs x y t o e d h hs ht hg ho he hb =>
    have hd := hopened h
    obtain ⟨F, habreast, hstep⟩ := hd.exists_enclosed (hd.clause_ne_source hs) ht
    have e₁ : a ++ t :: (gs ++ o :: x) ++ (y ++ e :: b) =
        a ++ t :: (gs ++ o :: (x ++ y ++ e :: b)) := by simp
    have e₂ : a ++ t :: (gs ++ o :: x) ++ c :: (y ++ e :: b) =
        a ++ t :: (gs ++ o :: (x ++ c :: y ++ e :: b)) := by simp
    rw [e₁, h.parse] at hq
    rw [e₂, h.parse] at hq'
    obtain ⟨r, -, hs, hr⟩ := exists_of_enclosed (hstep hg ho he hb) hq
    obtain ⟨r', -, -, hr'⟩ := exists_of_enclosed (hstep hg ho he (balanced_comment hc hb)) hq'
    obtain ⟨q'', hq'', hsource⟩ := (habreast r r').parse (hd.step hs) hr
    obtain rfl := Except.ok.inj (hr'.symm.trans hq'')
    rw [Target.resolve?_eq, Query.anchor?_congr hsource, ← Target.resolve?_eq]
  | @word a b d w h hc' hs hw hanchor =>
    have hanchored : (d.pushComment c).Anchored (.word w) :=
      .pending hc' hs (Fragment.firstWord_pushComment hw c)
    have hq := hanchor q hq
    rw [h.parse, parseTokens_step (step_comment hc)] at hq'
    rw [Target.resolve?_eq, hanchored.parse hq', ← hq, ← Target.resolve?_eq]
  | @past a b x r h =>
    rw [List.append_assoc] at hq hq'
    rw [Target.resolve?_eq, h.parse hq', ← h.parse hq, ← Target.resolve?_eq]
  | @subquery a b x y o e d h hc' hs hf ho he hb hx ih =>
    have hstep : ∀ {z us}, Balanced z → d.step [] o (z ++ e :: us) = _ :=
      step_subquery hc' hf hs ho he
    have hheld : ∀ r, (d.setSubquery r).Anchored (.subquery r) := fun r ↦ .held ⟨rfl, nofun⟩
    have e₁ : a ++ o :: x ++ (y ++ e :: b) = a ++ o :: (x ++ y ++ e :: b) := by simp
    have e₂ : a ++ o :: x ++ c :: (y ++ e :: b) = a ++ o :: (x ++ c :: y ++ e :: b) := by simp
    rw [e₁, h.parse] at hq
    rw [e₂, h.parse] at hq'
    obtain ⟨r, hz, -, hr⟩ := exists_of_enclosed (hstep hb) hq
    obtain ⟨r', hz', -, hr'⟩ := exists_of_enclosed (hstep (balanced_comment hc hb)) hq'
    rw [Target.resolve?_eq, (hheld r').parse hr', Target.resolve?_eq q, (hheld r).parse hr]
    exact ih hz hz'

/-- A comment just after `FROM` is taken for the table. -/
theorem Target.resolve?_of_leading_comment {w : Text} (h : Passes {} a d) (hd : d.clause = .source)
    (hs : d.query.source = some (.table [])) (hf : d.fragment = {}) (hc : c.kind = .comment)
    (hw : (Text.words c.text).head? = some w) (hq : parseTokens [] (a ++ c :: b) {} = .ok q)
    (database table : Text) : resolve? q database table = ofReference? database table w := by
  have hanchored : (d.pushComment c).Anchored (.word w) :=
    .pending hd hs
      ⟨c.text, '\n', [], by simp [Draft.pushComment, Fragment.pushComment, hf], rfl, hw⟩
  rw [h.parse, parseTokens_step (step_comment hc)] at hq
  rw [Target.resolve?_eq, hanchored.parse hq]
  rfl

/-- A comment changes no filter at a place that leaves the target alone. -/
theorem Filter.conditions_comment (h : Clear a b) (hc : c.kind = .comment)
    (hs : tokens? s = .ok (a ++ b)) (hs' : tokens? s' = .ok (a ++ c :: b)) (hq : parse s = .ok q)
    (hq' : parse s' = .ok q') (fs : List Filter) (database table : Text) :
    conditions fs (Target.resolve? q' database table) =
      conditions fs (Target.resolve? q database table) := by
  obtain ⟨rfl, hl⟩ := tokens?_eq_ok_iff.1 hs
  obtain ⟨rfl, hl'⟩ := tokens?_eq_ok_iff.1 hs'
  rw [parse_textOf hl] at hq
  rw [parse_textOf hl'] at hq'
  rw [h.resolve? hc hq hq']

theorem Filter.conditions_comment_subquery :
    (parse "SELECT a FROM (SELECT b /* c */FROM db.t) x").map
        (fun q ↦ conditions [⟨"db.t.a", "=", .text "v"⟩] (Target.resolve? q "d" "u")) =
      .ok [("a = 'v'" : Text)] ∧
    (parse "SELECT a FROM (SELECT b FROM /* c */db.t) x").map
        (fun q ↦ conditions [⟨"db.t.a", "=", .text "v"⟩] (Target.resolve? q "d" "u")) = .ok [] := by
  let inner (xs : List Text) : Query :=
    { slots := { select := some xs }, source := some (.table ["db.t"]) }
  let outer (r : Query) : Query :=
    { slots := { select := some ["a"], aliases := some ["x"] }, source := some (.subquery r) }
  have hq : parse "SELECT a FROM (SELECT b FROM db.t) x" = .ok (outer (inner ["b"])) :=
    toOption_eq_some.1 (by decide +kernel)
  have hq' : parse "SELECT a FROM (SELECT b /* c */FROM db.t) x" =
      .ok (outer (inner ["b /* c */"])) := toOption_eq_some.1 (by decide +kernel)
  have hclear : Clear
      [⟨.clause, "SELECT"⟩, space, ⟨.identifier, "a"⟩, space, ⟨.clause, "FROM"⟩, space,
        ⟨.opening, "("⟩, ⟨.clause, "SELECT"⟩, space, ⟨.identifier, "b"⟩, space]
      [⟨.clause, "FROM"⟩, space, ⟨.identifier, "db"⟩, ⟨.operator, "."⟩, ⟨.identifier, "t"⟩,
        ⟨.closing, ")"⟩, space, ⟨.identifier, "x"⟩] :=
    .subquery
      (a := [⟨.clause, "SELECT"⟩, space, ⟨.identifier, "a"⟩, space, ⟨.clause, "FROM"⟩, space])
      (x := [⟨.clause, "SELECT"⟩, space, ⟨.identifier, "b"⟩, space])
      (y := [⟨.clause, "FROM"⟩, space, ⟨.identifier, "db"⟩, ⟨.operator, "."⟩, ⟨.identifier, "t"⟩])
      (.token (fun _ ↦ rfl) <| .token (fun _ ↦ rfl) <| .token (fun _ ↦ rfl) <|
        .token (fun _ ↦ rfl) <| .token (fun _ ↦ rfl) <| .token (fun _ ↦ rfl) .nil)
      rfl rfl rfl rfl rfl (by decide)
      (.before (.token (fun _ ↦ rfl) <| .token (fun _ ↦ rfl) <| .token (fun _ ↦ rfl) <|
        .token (fun _ ↦ rfl) .nil) rfl)
  constructor
  · rw [hq', Except.map, conditions_comment hclear (c := ⟨.comment, "/* c */"⟩) rfl
      (tokens?_eq_ok_iff.2 ⟨rfl, by decide +kernel⟩)
      (tokens?_eq_ok_iff.2 ⟨rfl, by decide +kernel⟩) hq hq']
    rfl
  · have hq'' : parse "SELECT a FROM (SELECT b FROM /* c */db.t) x" =
        .ok (outer { inner ["b"] with source := some (.table ["/* c */\ndb.t"]) }) :=
      toOption_eq_some.1 (by decide +kernel)
    rw [hq'']
    rfl

end QueryTemplate
