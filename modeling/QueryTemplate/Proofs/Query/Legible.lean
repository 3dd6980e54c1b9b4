import QueryTemplate.Proofs.Query.Carries
import QueryTemplate.Proofs.Query.Block
import QueryTemplate.Proofs.Query.Unions
import QueryTemplate.Proofs.Query.Regular
namespace QueryTemplate

open Token Grammar Fragment

variable {lines : Bool} {x : Text} {n m : Int} {b : Bool} {t : Token} {ts us : List Token}
    {d e : Nat} {even : Bool} {rest : Text}

/-- Whether no parentheses after `IN` hold a line comment. -/
def quietMembers : List Token → Bool
  | [] => true
  | t :: ts => (!(t.kind = .membership) || (groupAhead ts).all fun p ↦
      p.1.all (!·.isLineComment)) && quietMembers ts

theorem quietMembers_suffix (h : quietMembers ts = true) (hu : us <:+ ts) :
    quietMembers us = true := by
  obtain ⟨a, rfl⟩ := hu
  induction a with
  | nil => exact h
  | cons t a ih =>
    rw [List.cons_append, quietMembers, Bool.and_eq_true] at h
    exact ih h.2

theorem closing?_append_right {p : List Token × List Token} (h : closing? d us = some p)
    (ts : List Token) :
    closing? d (us ++ ts) = some (p.1, p.2 ++ ts) := by
  obtain ⟨hb, e, he, rfl⟩ := depthRun_of_closing? h
  rw [List.append_assoc, List.cons_append, closing?_append hb he]

theorem groupAhead_append_right {p : List Token × List Token} (h : groupAhead us = some p)
    (ts : List Token) :
    groupAhead (us ++ ts) = some (p.1, p.2 ++ ts) := by
  rw [groupAhead] at h ⊢
  rw [List.dropWhile_append]
  cases hd : us.dropWhile isBlank with
  | nil =>
    rw [hd] at h
    cases h
  | cons o vs =>
    rw [hd] at h
    simp only [List.isEmpty_cons, Bool.false_eq_true, if_false, List.cons_append] at h ⊢
    split at h
    · rw [if_pos ‹_›]
      exact closing?_append_right h ts
    · cases h

theorem quietMembers_prefix (h : quietMembers (us ++ ts) = true) : quietMembers us = true := by
  induction us with
  | nil => rfl
  | cons t us ih =>
    simp only [List.cons_append, quietMembers, Bool.and_eq_true, Bool.or_eq_true] at h ⊢
    refine ⟨h.1.imp_right fun hq ↦ ?_, ih h.2⟩
    cases hg : groupAhead us with
    | none => rfl
    | some p => rwa [groupAhead_append_right hg] at hq

theorem quietMembers_of_forall (h : ∀ t ∈ ts, t.isLineComment = false) :
    quietMembers ts = true := by
  induction ts with
  | nil => rfl
  | cons t ts ih =>
    have h' := fun u hu ↦ h u (List.mem_cons_of_mem t hu)
    rw [quietMembers, ih h', Bool.and_true, Bool.or_eq_true]
    refine .inr ?_
    cases hg : groupAhead ts with
    | none => rfl
    | some p =>
      obtain ⟨gs, o, e, rfl, -⟩ := groupAhead_eq_some hg
      simp only [Option.all_some, List.all_eq_true, Bool.not_eq_true']
      exact fun u hu ↦ h' u (by simp [hu])

/-- Tokens that can be put into texts in any order: no slash stands before an asterisk, and there
are no line comments but with `lines`, and then none in parentheses after `IN`. -/
structure Legible (lines : Bool) (ts : List Token) : Prop where
  lexed : Lexed ts
  slash : opensComment ts = false
  line : lines = false → ∀ t ∈ ts, t.isLineComment = false
  quiet : quietMembers ts = true

theorem Legible.suffix (h : Legible lines ts) (hu : us <:+ ts) : Legible lines us := by
  have hq := quietMembers_suffix h.quiet hu
  obtain ⟨a, rfl⟩ := hu
  exact ⟨h.lexed.suffix, opensComment_right a us h.slash,
    fun e t ht ↦ h.line e t (List.mem_append_right _ ht), hq⟩

theorem Legible.left {a : List Token} (h : Legible lines (a ++ t :: us)) (ht : IsCut t) :
    Legible lines a :=
  ⟨h.lexed.left ht, opensComment_left a (t :: us) h.slash,
    fun e u hu ↦ h.line e u (List.mem_append_left _ hu),
    quietMembers_prefix h.quiet⟩

/-- What parentheses after `IN` hold is without line comments. -/
theorem Legible.member {a b : List Token} (h : Legible lines (t :: ts)) (ht : t.kind = .membership)
    (hg : groupAhead ts = some (b, a)) : Legible false b := by
  have hq := h.quiet
  simp only [quietMembers, ht, hg, decide_true, Bool.not_true, Bool.false_or, Bool.and_eq_true,
    Option.all_some, List.all_eq_true, Bool.not_eq_true'] at hq
  obtain ⟨gs, o, e, rfl, -, -, he, -⟩ := groupAhead_eq_some hg
  have hs : b ++ e :: a <:+ t :: (gs ++ o :: (b ++ e :: a)) := ⟨t :: (gs ++ [o]), by simp⟩
  have hb : Legible lines b := (h.suffix hs).left (.inl he)
  exact ⟨hb.lexed, hb.slash, fun _ ↦ hq.1, hb.quiet⟩

theorem Legible.tail (h : Legible lines (t :: ts)) : Legible lines ts :=
  h.suffix (List.suffix_cons t ts)

theorem Legible.lexical (h : Legible lines ts) : ∀ t ∈ ts, Lexical t := h.lexed.lexical

theorem Legible.tally (h : Legible lines ts) : ∃ b, tally lines (textOf ts) = some (weigh ts, b) :=
  tally_textOf h.lexed h.slash h.line

/-- The runs between tokens that are cuts. -/
theorem Legible.runs {q : Token → Bool} (h : Legible lines ts) (hq : ∀ t, q t = true → IsCut t)
    {r : List Token} (hr : r ∈ splitOutside q ts) : Legible lines r := by
  have parts : ∀ (ps : List (Token × List Token)) (lead : List Token), (∀ a ∈ ps, IsCut a.1) →
      Legible lines (lead ++ ps.flatMap fun a ↦ a.1 :: a.2) →
          ∀ r ∈ lead :: ps.map Prod.snd, Legible lines r := by
    intro ps
    induction ps with
    | nil =>
      intro lead _ h r hr
      obtain rfl := List.mem_singleton.1 hr
      simpa using h
    | cons a ps ih =>
      intro lead hps h r hr
      obtain ⟨ha, hps⟩ := List.forall_mem_cons.1 hps
      rw [List.flatMap_cons, List.cons_append] at h
      rcases List.mem_cons.1 hr with rfl | hr
      · exact h.left ha
      · exact ih a.2 hps (h.suffix ⟨lead ++ [a.1], by simp⟩) r hr
  refine parts _ _ (fun a ha ↦ hq _ (heading_of_mem_parts ts a ha)) ?_ r hr
  have e := tokens_sections q 0 ts
  rw [Sections.tokens] at e
  rwa [e]

theorem weight_of_isBlank (h : t.isBlank = true) : t.weight = 0 := by
  have hk : t.kind = .blank := by simpa [isBlank] using h
  exact weight_of_kind (by simp [hk]) (by simp [hk])

theorem weight_of_isComma (h : t.isComma = true) : t.weight = 0 := by
  have hk : t.kind = .punctuation := by
    simp only [isComma, Bool.and_eq_true, decide_eq_true_eq] at h
    exact h.1
  exact weight_of_kind (by simp [hk]) (by simp [hk])

theorem weigh_of_depthRun (h : depthRun d ts = some e) : weigh ts = e - d := by
  have := countP_of_depthRun h
  rw [weigh_eq]
  omega

theorem pushToken_depth (f : Fragment) (t : Token) :
    (f.pushToken t).depth = f.depth + t.weight := by
  rw [Fragment.pushToken, weight]
  by_cases ho : t.isOpenParen = true
  · simp [ho]
  · by_cases hc : t.isCloseParen = true
    · simp [ho, hc]
      omega
    · simp [ho, hc]

theorem group_eq_ok {p : List Token × List Token} (h : group rest ts = .ok p) :
    Balanced p.1 ∧ ∃ e, e.isCloseParen = true ∧ ts = p.1 ++ e :: p.2 := by
  rw [group] at h
  split at h
  · obtain rfl := Except.ok.inj h
    exact depthRun_of_closing? ‹_›
  · cases h

theorem weigh_of_balanced (h : Balanced ts) : weigh ts = 0 := weigh_of_depthRun h

theorem weight_of_isOpenParen (h : t.isOpenParen = true) : t.weight = 1 := by simp [weight, h]

theorem weight_of_isCloseParen (h : t.isCloseParen = true) : t.weight = -1 := by
  simp [weight, h, isOpenParen_of_isCloseParen h]

/-- Parentheses that are read as a whole have no weight. -/
theorem weigh_group {o e : Token} {b : List Token} (ho : o.isOpenParen = true)
    (he : e.isCloseParen = true) (hb : Balanced b) :
    weigh (o :: (b ++ e :: us)) = weigh us := by
  simp only [weigh_cons, weigh_append, weight_of_isOpenParen ho, weight_of_isCloseParen he,
    weigh_of_balanced hb]
  omega

/-- Whether no parenthesis opens after a token that ends in a point. -/
def pointFree : List Token → Bool
  | [] => true
  | t :: ts => (t.text.getLast? ≠ some '.' || (ts.dropWhile isBlank).head?.all
      (!·.isOpenParen)) && pointFree ts

theorem pointFree_suffix (h : pointFree ts = true) (hu : us <:+ ts) : pointFree us = true := by
  obtain ⟨a, rfl⟩ := hu
  induction a with
  | nil => exact h
  | cons t a ih =>
    rw [List.cons_append, pointFree, Bool.and_eq_true] at h
    exact ih h.2

theorem pointFree_left (h : pointFree (us ++ ts) = true) : pointFree us = true := by
  induction us with
  | nil => rfl
  | cons t us ih =>
    simp only [List.cons_append, pointFree, Bool.and_eq_true, Bool.or_eq_true] at h ⊢
    refine ⟨h.1.imp_right fun hb ↦ ?_, ih h.2⟩
    rw [List.dropWhile_append] at hb
    cases hd : us.dropWhile isBlank with
    | nil => rfl
    | cons o vs => simpa [hd] using hb

theorem pointFree_within (h : pointFree ts = true) (hu : us <:+: ts) : pointFree us = true := by
  obtain ⟨a, b, rfl⟩ := hu
  exact pointFree_suffix (pointFree_left h) (List.suffix_append a us)

/-- With `even` no amount but zero is allowed. -/
def Allowed (even : Bool) (n : Int) : Prop := even = true → n = 0

theorem Allowed.add (hn : Allowed even n) (hm : Allowed even m) : Allowed even (n + m) :=
  fun h ↦ by rw [hn h, hm h]; rfl

/-- With `even` the tokens close the `n` parentheses that are open and all that they open
themselves, of which none opens after a point. -/
def Closes (even : Bool) (n : Int) (ts : List Token) : Prop :=
  even = true → pointFree ts = true ∧ ∃ d : Nat, n = d ∧ depthRun d ts = some 0

namespace Closes

theorem append (h : Closes even n (us ++ ts)) : Closes even (n + weigh us) ts := by
  intro he
  obtain ⟨hp, d, rfl, hr⟩ := h he
  obtain ⟨k, hk, hr⟩ : ∃ k, depthRun d us = some k ∧ depthRun k ts = some 0 := by
    rwa [depthRun_append, Option.bind_eq_some_iff] at hr
  refine ⟨pointFree_suffix hp (List.suffix_append us ts), k, ?_, hr⟩
  rw [weigh_of_depthRun hk]
  omega

theorem tail (h : Closes even n (t :: ts)) : Closes even (n + t.weight) ts := by
  have h' : Closes even n ([t] ++ ts) := h
  have := h'.append
  rwa [weigh_cons, weigh_nil, Int.add_zero] at this

theorem skip (h : Closes even n (us ++ ts)) (hw : weigh us = 0) : Closes even n ts := by
  have := h.append
  rwa [hw, Int.add_zero] at this

theorem skip_token (h : Closes even n (t :: ts)) (hw : t.weight = 0) : Closes even n ts := by
  have := h.tail
  rwa [hw, Int.add_zero] at this

/-- Where a text ends none of its parentheses is open. -/
theorem allowed (h : Closes even n ts) (hn : ts = [] ∨ n ≤ 0) : Allowed even n := by
  intro he
  obtain ⟨-, d, rfl, hr⟩ := h he
  rcases hn with rfl | hn
  · obtain rfl := Option.some.inj hr
    rfl
  · omega

theorem restart (h : Closes even n ts) (hn : Allowed even n) : Closes even 0 ts := by
  intro he
  obtain ⟨hp, d, hd, hr⟩ := h he
  rw [hn he] at hd
  exact ⟨hp, d, hd, hr⟩

theorem group {o c : Token} (h : Closes even n (o :: (us ++ c :: ts))) (ho : o.isOpenParen = true)
    (hc : c.isCloseParen = true) (hb : Balanced us) : Closes even n ts := by
  have e : o :: (us ++ c :: ts) = (o :: (us ++ [c])) ++ ts := by simp
  rw [e] at h
  exact h.skip (weigh_group ho hc hb)

theorem body (h : Closes even n ts) (hu : us <:+: ts) (hb : Balanced us) : Closes even 0 us :=
  fun he ↦ ⟨pointFree_within (h he).1 hu, 0, rfl, hb⟩

theorem weigh_allowed (h : Closes even 0 ts) : Allowed even (weigh ts) := by
  intro he
  obtain ⟨-, d, hd, hr⟩ := h he
  have := weigh_of_depthRun hr
  omega

end Closes

end QueryTemplate
