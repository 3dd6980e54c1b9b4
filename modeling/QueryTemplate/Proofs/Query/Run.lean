import QueryTemplate.Proofs.Query.Rewrites
namespace QueryTemplate

open Token Fragment Grammar

/-- Parentheses after `IN` enclose no joins. -/
def Calm (ts : List Token) : Prop := (∀ t ∈ ts, t.kind ≠ .join) ∨ ∀ t ∈ ts, t.kind ≠ .membership

theorem covered_isBreak {d : Nat} {ts : List Token} (h : Covered isHeading d ts)
    (hj : ∀ t ∈ ts, t.kind ≠ .join) :
    Covered isBreak d ts := by
  induction ts generalizing d with
  | nil => exact covered_nil
  | cons t ts ih =>
    obtain ⟨ht, hts⟩ := covered_cons.1 h
    obtain ⟨hk, hj⟩ := List.forall_mem_cons.1 hj
    refine covered_cons.2 ⟨fun hd ↦ ?_, ih hts hj⟩
    have := ht hd
    simp_all [isBreak, isHeading]

theorem Calm.subset {ts us : List Token} (h : Calm ts) (hs : us ⊆ ts) : Calm us :=
  h.imp (fun h t ht ↦ h t (hs ht)) fun h t ht ↦ h t (hs ht)

/-- The tokens `ts` of the clause `c` come after the expression `f`, which ends in `p`; at their
depth `d` they end, and what is read as a query in them can be written anew. -/
structure Pending (c : Clause) (n : Bool) (f : Fragment) (p : Option Token) (d : Nat)
    (ts : List Token) :
    Prop where
  ends : f.EndsIn p
  depth : f.depth = d
  balanced : depthRun d ts = some 0
  covered : Covered isBreak d ts
  commas : c = .slot .prewhere ∨ c = .slot .aliases → Covered isComma d ts
  tokens : ∀ t ∈ ts, Lexical t ∧ Steady t
  calm : Calm ts
  lexed : ∃ z, ahead z = [] ∧ (∀ t ∈ z, t.kind ≠ .comment) ∧ Lexed (ts ++ z)
  apart : PointsApart p ts
  start : c = .source → n = false → f.text = [] →
    ∀ o ∈ (ts.dropWhile isBlank).head?, o.isOpenParen = false ∧ o.isComma = false
  levels : ∀ b ∈ innerLevels (c = .source) d (trailingWord f.text) ts, ∃ q b', Body b q b'

variable {c : Clause} {n : Bool} {f : Fragment} {p : Option Token} {d : Nat} {t : Token}
    {ts : List Token}

namespace Pending

theorem lexed_tail (h : Pending c n f p d (t :: ts)) :
    ∃ z, ahead z = [] ∧ (∀ t ∈ z, t.kind ≠ .comment) ∧ Lexed (ts ++ z) := by
  obtain ⟨z, h₁, h₂, h₃⟩ := h.lexed
  exact ⟨z, h₁, h₂, h₃.tail⟩

theorem blank (h : Pending c n f p d (t :: ts)) (ht : t.isBlank = true) : Pending c n f p d ts := by
  have hk : t.kind = .blank := by simpa [Token.isBlank] using ht
  have hs : after (standing d t) t = d := by simp [after, standing, isOpenParen, isCloseParen, hk]
  refine ⟨h.ends, h.depth, hs ▸ (depthRun_cons (f := f) h.balanced).1,
    hs ▸ (covered_cons.1 h.covered).2,
    fun hc ↦ hs ▸ (covered_cons.1 (h.commas hc)).2, fun u hu ↦
      h.tokens u (List.mem_cons_of_mem _ hu),
    h.calm.subset (List.subset_cons_self _ _), h.lexed_tail,
    (pointsApart_blank ht).1 h.apart, fun hc hn hf ↦ ?_, ?_⟩
  · have := h.start hc hn hf
    rwa [List.dropWhile_cons_of_pos ht] at this
  · have := h.levels
    rwa [innerLevels_blank ht] at this

theorem push (h : Pending c n f p d (t :: ts)) (hb : t.kind ≠ .blank)
    (hl : innerLevels (c = .source) d (trailingWord f.text) (t :: ts) =
      innerLevels (c = .source) (after (standing d t) t) (trailingWord t.text) ts) :
    Pending c n (f.pushToken t) (some t) (after (standing d t) t) ts := by
  obtain ⟨ht, pt⟩ := h.tokens t List.mem_cons_self
  have he := h.ends.pushToken ht pt.neat hb
  refine ⟨he, (depthRun_cons h.balanced).2 h.depth, (depthRun_cons (f := f) h.balanced).1,
    (covered_cons.1 h.covered).2, fun hc ↦ (covered_cons.1 (h.commas hc)).2,
    fun u hu ↦ h.tokens u (List.mem_cons_of_mem _ hu),
    h.calm.subset (List.subset_cons_self _ _), h.lexed_tail,
    ((pointsApart_cons (by simp [Token.isBlank, hb])).1 h.apart).2, fun _ _ hf ↦
      absurd hf he.text_ne_nil, ?_⟩
  rw [(he.last t rfl).2, ← hl]
  exact h.levels

/-- After a parenthesis that is read as a whole. -/
theorem group {a b : List Token} {o e : Token} {f' : Fragment}
    (h : Pending c n f p d (a ++ o :: (b ++ e :: ts))) (ha : depthRun d a = some d)
    (ho : o.isOpenParen = true) (he : e.isCloseParen = true) (hb : Balanced b)
    (hf : f'.EndsIn (some e)) (hd : f'.depth = d) (hl : ∀ x ∈ innerLevels (c = .source) d [] ts,
      x ∈ innerLevels (c = .source) d (trailingWord f.text) (a ++ o :: (b ++ e :: ts))) :
    Pending c n f' (some e) d ts := by
  have hbal := h.balanced
  rw [depthRun_append, ha, Option.bind_some, depthRun_group ho he hb] at hbal
  have hcov : ∀ {q}, Covered q d (a ++ o :: (b ++ e :: ts)) → Covered q d ts := by
    intro q hq
    have := (covered_append.1 hq).2
    rw [depthAfter_of_depthRun ha] at this
    exact covered_group ho he hb this
  have hap : PointsApart (some e) ts := by
    refine PointsApart.drop (p := p) (a := a ++ o :: b) ?_ (isBlank_of_isCloseParen he).2.2.1
    have := h.apart
    simpa using this
  obtain ⟨z, h₁, h₂, h₃⟩ := h.lexed
  have hlex : Lexed (ts ++ z) := by
    refine Lexed.suffix (a := a ++ o :: (b ++ [e])) ?_
    simpa using h₃
  refine ⟨hf, hd, hbal, hcov h.covered, fun hc ↦ hcov (h.commas hc),
    fun u hu ↦ h.tokens u (by simp [hu]),
    h.calm.subset fun u hu ↦ by simp [hu], ⟨z, h₁, h₂, hlex⟩, hap,
    fun _ _ hf' ↦ absurd hf' hf.text_ne_nil, fun x hx ↦ h.levels x (hl x ?_)⟩
  rwa [(hf.last e rfl).2, (isBlank_of_isCloseParen he).2.1] at hx

end Pending

theorem Fragment.EndsIn.take? (h : f.EndsIn p) (hc : f.Clean) :
    f.take? = if f.text = [] then none else some f.text := by
  rw [Fragment.take?, h.solid.trim, hc.line]
  rfl

theorem Fragment.EndsIn.endsInTableFunction (h : f.EndsIn p) :
    f.endsInTableFunction = tableFunctions.contains (trailingWord f.text) := by
  rw [Fragment.endsInTableFunction, h.solid.trim]

theorem Fragment.EndsIn.isEmpty (h : f.EndsIn p) : f.isEmpty = true ↔ f.text = [] := by
  rw [Fragment.isEmpty, h.solid.trim, decide_eq_true_eq]

/-- What follows an expression `g` that is complete: nothing, a comma or another predicate. -/
inductive Rest (c : Clause) (n : Bool) (g : Fragment) : List Token → Prop
  | done : Rest c n g []
  | comma {u us} (ht : u.isComma = true) (hc : c ≠ .slot .prewhere ∧ c ≠ .slot .aliases)
    (h : Pending c (n || g.take?.isSome) {} none 0 us) : Rest c n g (u :: us)
  | conjunction {u us} (ht : u.kind = .conjunction) (hc : c.isPredicate = true) (hg : g.text ≠ [])
    (h : Pending c n {} none 0 (u :: us)) : Rest c n g (u :: us)

/-- A first expression in some tokens is written anew, and the rest of them follows it. -/
structure Run (c : Clause) (n : Bool) (f : Fragment) (p : Option Token)
    (ts orig tail its : List Token) (g : Fragment) : Prop where
  split : ts = orig ++ tail
  rewrites : Rewrites c n f p orig its g
  balanced : g.isBalanced = true
  rest : Rest c n g tail

namespace Pending

theorem isComma_eq_false (h : Pending c n f p d (t :: ts))
    (hx : ¬(t.isComma = true ∧ d = 0)) (ht : t.isComma = true) : f.isBalanced = false := by
  rw [Bool.eq_false_iff]
  exact fun hb ↦ hx ⟨ht, (isBalanced_iff h.depth).1 hb⟩

/-- What is put into the expression where it stands. -/
theorem pushes (h : Pending c n f p d (t :: ts)) (hb : t.kind ≠ .blank) (hm : t.kind ≠ .membership)
    (hcom : ¬(t.isComma = true ∧ d = 0))
    (hcon : ¬(t.kind = .conjunction ∧ c.isPredicate = true ∧ d = 0))
    (hraw : c = .source → d = 0 → t.isOpenParen = true →
      tableFunctions.contains (trailingWord f.text) = false) : Pushes c n f t where
  kind := ⟨hb, (h.tokens t List.mem_cons_self).2.1, hm⟩
  inner hk := by
    have pt := (h.tokens t List.mem_cons_self).2
    have hbreak : isBreak t = true → f.isBalanced = false := by
      rw [Bool.eq_false_iff]
      intro hk hbal
      obtain rfl := (isBalanced_iff h.depth).1 hbal
      have := (covered_cons.1 h.covered).1 (by simp [standing])
      rw [hk] at this
      cases this
    rcases hk with hk | hk | hk | hk
    · exact hbreak (by simp [isBreak, hk])
    · exact hbreak (by simp [isBreak, hk])
    · exact absurd hk pt.2.1
    · exact h.isComma_eq_false hcom hk
  conjunction hk hc := by
    rw [Bool.eq_false_iff]
    exact fun hbal ↦ hcon ⟨hk, hc, (isBalanced_iff h.depth).1 hbal⟩
  paren ho hc hbal := by
    obtain rfl := (isBalanced_iff h.depth).1 hbal
    rw [h.ends.endsInTableFunction]
    refine ⟨hraw hc rfl ho, ?_⟩
    cases hn : n with
    | true => exact .inr rfl
    | false =>
      left
      rw [Bool.eq_false_iff]
      intro he
      have := h.start hc hn (h.ends.isEmpty.1 he) t
        (by rw [List.dropWhile_cons_of_neg (by simp [Token.isBlank, hb])]; rfl)
      rw [this.1] at ho
      cases ho

theorem rest_comma (h : Pending c n f p 0 (t :: ts)) (hf : f.Clean) (ht : t.isComma = true) :
    Rest c n f (t :: ts) := by
  have hk : t.kind = .punctuation ∧ t.text = [','] := by simpa [isComma] using ht
  have hs : after (standing 0 t) t = 0 := by simp [after, standing, isOpenParen, isCloseParen, hk.1]
  have hb : t.isBlank = false := by simp [Token.isBlank, hk.1]
  have hc : ¬(c = .slot .prewhere ∨ c = .slot .aliases) := by
    intro hc
    have := (covered_cons.1 (h.commas hc)).1 (by simp [standing, isCloseParen, hk.1])
    rw [ht] at this
    cases this
  have hl : ∀ b ∈ innerLevels (c = .source) 0 [] ts, ∃ q b', Body b q b' := by
    have hl := h.levels
    rw [innerLevels_token (by simp [hk.1]) (by simp [hk.1]) (by simp [isOpenParen, hk.1]), hs,
      hk.2] at hl
    exact hl
  have hd := (depthRun_cons (f := f) h.balanced).1
  have hcov := (covered_cons.1 h.covered).2
  rw [hs] at hd hcov
  refine .comma ht (not_or.1 hc) ⟨endsIn_empty, rfl, hd, hcov, fun hc' ↦ absurd hc' hc,
    fun u hu ↦ h.tokens u (List.mem_cons_of_mem _ hu),
    h.calm.subset (List.subset_cons_self _ _), h.lexed_tail,
      ((pointsApart_cons hb).1 h.apart).2.none, fun hc hn _ ↦ ?_, hl⟩
  rw [Bool.or_eq_false_iff, h.ends.take? hf] at hn
  have hx := h.start hc hn.1
  split at hn
  · have := hx ‹_› t (by rw [List.dropWhile_cons_of_neg (by simp [hb])]; rfl)
    rw [ht] at this
    cases this.2
  · cases hn.2

theorem rest_conjunction (h : Pending c n f p 0 (t :: ts)) (ht : t.kind = .conjunction)
    (hc : c.isPredicate = true) (hf : f.text ≠ []) : Rest c n f (t :: ts) := by
  have hsrc : c ≠ .source := by
    rintro rfl
    cases hc
  refine .conjunction ht hc hf ⟨endsIn_empty, rfl, h.balanced, h.covered, h.commas, h.tokens,
    h.calm, h.lexed, h.apart.none,
    fun hc ↦ absurd hc hsrc, ?_⟩
  have hl := h.levels
  rw [innerLevels_token (by simp [ht]) (by simp [ht]) (by simp [isOpenParen, ht])] at hl
  rw [innerLevels_token (by simp [ht]) (by simp [ht]) (by simp [isOpenParen, ht])]
  exact hl

theorem body_of_member {N : Nat} {gs b us : List Token} {o e : Token}
    (h : Pending c n f p d (t :: ts)) (hk : t.kind = .membership)
    (hg : groupAhead ts = some (b, us)) (hs : ts = gs ++ o :: (b ++ e :: us))
    (he : e.isCloseParen = true) (hb : Balanced b) (hN : ts.length < N)
    (hbare : ∀ b, b.length < N → Pending .root false {} none 0 b → ∃ q b', Body b q b') :
    ∃ q b', Body b q b' := by
  have hl := h.levels
  rw [innerLevels_member hk hg] at hl
  by_cases hc : Covered isHeading 0 b
  · rw [if_pos hc] at hl
    obtain ⟨z, h₁, h₂, h₃⟩ := h.lexed
    obtain ⟨-, -, heb, hew⟩ := isBlank_of_isCloseParen he
    have hj : ∀ u ∈ t :: ts, u.kind ≠ .join :=
      h.calm.resolve_right fun hm ↦ hm t List.mem_cons_self hk
    have hsub : b ⊆ t :: ts := fun u hu ↦ by simp [hs, hu]
    refine hbare b ?_ ⟨endsIn_empty, rfl, hb, covered_isBreak hc fun u hu ↦ hj u (hsub hu), by simp,
      fun u hu ↦ h.tokens u (hsub hu), h.calm.subset hsub, ⟨e :: (us ++ z), ahead_symbol heb hew _,
        fun u hu ↦ ?_, ?_⟩, ?_, by simp,
      fun x hx ↦ hl x (List.mem_append_left _ hx)⟩
    · have := groupAhead_length hg
      omega
    · rcases List.mem_cons.1 hu with rfl | hu
      · exact (h.tokens u (by simp [hs])).2.1
      · rcases List.mem_append.1 hu with hu | hu
        · exact (h.tokens u (by simp [hs, hu])).2.1
        · exact h₂ u hu
    · refine Lexed.suffix (a := t :: (gs ++ [o])) ?_
      simpa [hs] using h₃
    · have := h.apart
      rw [pointsApart_cons (by simp [Token.isBlank, hk]), hs, ← List.singleton_append,
        ← List.append_assoc] at this
      exact this.2.right.left
  · rw [if_neg hc] at hl
    exact hl b (by simp)

theorem member {gs b b' us : List Token} {o e : Token} {q : Query} (h : Pending c n f p d (t :: ts))
    (hgr : groupAhead ts = some (b, us)) (hs : ts = gs ++ o :: (b ++ e :: us))
    (hk : t.kind = .membership) (hg : ∀ u ∈ gs, u.isBlank = true) (ho : o.isOpenParen = true)
    (he : e.isCloseParen = true) (hb : Balanced b) (hbody : Body b q b') :
    Pending c n ((f.pushToken t).pushText (membershipText q)) (some e) d us := by
  obtain ⟨ht, pt⟩ := h.tokens t List.mem_cons_self
  have hl : innerLevels (c = .source) d (trailingWord f.text) (t :: ts) = _ :=
    innerLevels_member hk hgr
  have hends := h.ends.pushToken ht pt.neat (by simp [hk])
  subst hs
  rw [← List.cons_append] at h hl
  refine h.group ?_ ho he hb ?_ ?_ fun x hx ↦ ?_
  · simpa [depthRun, isOpenParen, isCloseParen, hk] using depthRun_blanks hg
  · rw [← hbody.text]
    exact hends.pushText (h.tokens e (by simp)).1 he _
  · simp [Fragment.pushText, Fragment.pushToken, isOpenParen, isCloseParen, hk, h.depth]
  · rw [hl]
    exact List.mem_append_right _ hx

theorem raw {b us : List Token} {e : Token} (h : Pending .source n f p 0 (t :: ts))
    (hgr : closing? 0 ts = some (b, us)) (hs : ts = b ++ e :: us) (ho : t.isOpenParen = true)
    (he : e.isCloseParen = true) (hb : Balanced b)
    (hw : tableFunctions.contains (trailingWord f.text) = true) :
    Pending .source n (f.pushText ('(' :: textOf b ++ [')'])) (some e) 0 us := by
  have hl := innerLevels_raw ho hw hgr
  subst hs
  rw [← List.nil_append (t :: _)] at h
  refine h.group rfl ho he hb ?_ h.depth fun x hx ↦ ?_
  · have hends := h.ends
    cases p with
    | none =>
      rw [hends.empty rfl] at hw
      exact absurd hw (by decide)
    | some q => exact hends.pushText (h.tokens e (by simp)).1 he _
  · rw [List.nil_append]
    simp only [decide_true, hl]
    exact hx

theorem noGroup_of_groupAhead (h : groupAhead ts = none) (hd : depthRun d ts = some 0) :
    NoGroup ts := by
  induction ts with
  | nil => exact noGroup_nil
  | cons t ts ih =>
    cases ht : t.isBlank with
    | true =>
      have hk : t.kind = .blank := by simpa [Token.isBlank] using ht
      refine (noGroup_blank ht ts).2 (ih ?_ ?_)
      · rwa [groupAhead, List.dropWhile_cons_of_pos ht] at h
      · simpa [depthRun, isOpenParen, isCloseParen, hk] using hd
    | false =>
      rw [noGroup_cons ht, Bool.eq_false_iff]
      intro ho
      obtain ⟨b, e, us, hc, -⟩ := exists_group ho hd
      rw [groupAhead, List.dropWhile_cons_of_neg (by simp [ht])] at h
      simp [ho, hc] at h

end Pending

theorem pushToken_of_empty (h : f.text = []) (hd : f.depth = 0) (t : Token) :
    f.pushToken t = Fragment.pushToken t {} := by
  simp only [Fragment.pushToken, h, hd]

/-- Tokens start with one that is written anew. -/
theorem exists_run {N : Nat}
    (hbare : ∀ b, b.length < N → Pending .root false {} none 0 b → ∃ q b', Body b q b')
    (hN : ts.length ≤ N) (hf : f.Clean) (h : Pending c n f p d ts) :
    ∃ orig tail its g, Run c n f p ts orig tail its g ∧ g.Clean := by
  induction hl : ts.length using Nat.strongRecOn generalizing ts f p d with
  | ind m ih =>
    cases ts with
    | nil =>
      obtain rfl := Option.some.inj h.balanced
      exact ⟨[], [], [], f, ⟨rfl, .nil h.ends, (isBalanced_iff h.depth).2 rfl, .done⟩, hf⟩
    | cons t ts =>
      rw [List.length_cons] at hl hN
      obtain ⟨ht, pt⟩ := h.tokens t List.mem_cons_self
      by_cases hb : t.kind = .blank
      · have hb : t.isBlank = true := by simp [Token.isBlank, hb]
        obtain ⟨orig, tail, its, g, hrun, hg⟩ :=
          ih ts.length (by omega) (by omega) hf (h.blank hb) rfl
        exact ⟨_, tail, its, g, ⟨congrArg (t :: ·) hrun.split, hrun.rewrites.blank hb,
          hrun.balanced, hrun.rest⟩, hg⟩
      · have ha := ((pointsApart_cons (by simp [Token.isBlank, hb])).1 h.apart).1
        by_cases hm : t.kind = .membership
        · cases hgr : groupAhead ts with
          | some q =>
            obtain ⟨b, us⟩ := q
            obtain ⟨gs, o, e, hs, hgs, ho, he, hbal⟩ := groupAhead_eq_some hgr
            obtain ⟨q, b', hbody⟩ := h.body_of_member hm hgr hs he hbal (by omega) hbare
            have hlen := groupAhead_length hgr
            have hp := h.member hgr hs hm hgs ho he hbal hbody
            obtain ⟨orig, tail, its, g, hrun, hg⟩ := ih us.length (by omega) (by omega)
              (Fragment.clean_pushText _ _) hp rfl
            refine ⟨_, tail, _, g,
              ⟨?_, hrun.rewrites.member hbody h.ends ht pt hm ha hgs ho he hbal,
              hrun.balanced, hrun.rest⟩, hg⟩
            simp [hs, hrun.split]
          | none =>
            have hs : after (standing d t) t = d := by
              simp [after, standing, isOpenParen, isCloseParen, hm]
            have hp := h.push hb (by rw [innerLevels_alone hm hgr, hs])
            obtain ⟨orig, tail, its, g, hrun, hg⟩ := ih ts.length (by omega) (by omega)
              (Fragment.clean_pushToken _ _) hp rfl
            have hno := Pending.noGroup_of_groupAhead hgr
              (by simpa [depthRun, isOpenParen, isCloseParen, hm] using h.balanced)
            rw [hrun.split] at hno
            refine ⟨_, tail, _, g, ⟨congrArg (t :: ·) hrun.split,
              hrun.rewrites.push ?_ h.ends ht pt hb ha ?_,
              hrun.balanced, hrun.rest⟩, hg⟩
            · rintro x us xs k (rfl | rfl) hu hr
              · exact .alone hm (hno.append hu) hr
              · exact .alone hm (hrun.rewrites.noGroup hno hu rfl) hr
            · intro hc
              simp [isComma, hm] at hc
        · by_cases hcom : t.isComma = true ∧ d = 0
          · obtain ⟨hcom, rfl⟩ := hcom
            exact ⟨[], _, [], f, ⟨rfl, .nil h.ends, (isBalanced_iff h.depth).2 rfl,
              h.rest_comma hf hcom⟩, hf⟩
          by_cases hcon : t.kind = .conjunction ∧ c.isPredicate = true ∧ d = 0
          · obtain ⟨hk, hc, rfl⟩ := hcon
            by_cases hft : f.text = []
            · have hs : after (standing 0 t) t = 0 := by
                simp [after, standing, isOpenParen, isCloseParen, hk]
              have hp := h.push hb (innerLevels_token hb hm (by simp [isOpenParen, hk]))
              obtain ⟨orig, tail, its, g, hrun, hg⟩ := ih ts.length (by omega) (by omega)
                (Fragment.clean_pushToken _ _) hp rfl
              refine ⟨_, tail, _, g, ⟨congrArg (t :: ·) hrun.split,
                hrun.rewrites.push ?_ h.ends ht pt hb ha ?_,
                hrun.balanced, hrun.rest⟩, hg⟩
              · rintro x us xs k - hu hr
                rw [pushToken_of_empty hft h.depth] at hr
                have := Reads.conjunction hk hc ((isBalanced_iff h.depth).2 rfl) hr
                rwa [h.ends.take? hf, if_pos hft] at this
              · intro hc
                simp [isComma, hk] at hc
            · exact ⟨[], _, [], f, ⟨rfl, .nil h.ends, (isBalanced_iff h.depth).2 rfl,
                h.rest_conjunction hk hc hft⟩, hf⟩
          by_cases hraw : c = .source ∧ d = 0 ∧ t.isOpenParen = true ∧
              tableFunctions.contains (trailingWord f.text) = true
          · obtain ⟨rfl, rfl, ho, hw⟩ := hraw
            obtain ⟨b, e, us, hgr, hs, he, hbal, -⟩ := exists_group ho h.balanced
            have hp := h.raw hgr hs ho he hbal hw
            have hlen : us.length < ts.length := by
              rw [hs, List.length_append, List.length_cons]
              omega
            obtain ⟨orig, tail, its, g, hrun, hg⟩ := ih us.length (by omega) (by omega)
              (Fragment.clean_pushText _ _) hp rfl
            refine ⟨_, tail, _, g, ⟨?_, hrun.rewrites.raw ?_ rfl
              ((isBalanced_iff h.depth).2 rfl) ?_ ho he hbal,
              hrun.balanced, hrun.rest⟩, hg⟩
            · simp [hs, hrun.split]
            · rintro e
              rw [e] at hw
              exact absurd hw (by decide)
            · rw [h.ends.endsInTableFunction, hw]
          · have hw : c = .source → d = 0 → t.isOpenParen = true →
                tableFunctions.contains (trailingWord f.text) = false := by
              intro hc hd ho
              rw [Bool.eq_false_iff]
              exact fun hw ↦ hraw ⟨hc, hd, ho, hw⟩
            have hp := h.push hb (innerLevels_token hb hm fun hc ↦ hw (by simpa using hc))
            obtain ⟨orig, tail, its, g, hrun, hg⟩ := ih ts.length (by omega) (by omega)
              (Fragment.clean_pushToken _ _) hp rfl
            have hpush := h.pushes hb hm hcom hcon hw
            refine ⟨_, tail, _, g, ⟨congrArg (t :: ·) hrun.split,
              hrun.rewrites.push ?_ h.ends ht pt hb ha ?_,
              hrun.balanced, hrun.rest⟩, hg⟩
            · rintro x us xs k - hu hr
              exact .token hpush hr
            · exact h.isComma_eq_false hcom

end QueryTemplate
