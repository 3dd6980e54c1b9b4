import QueryTemplate.Proofs.Query.Chapters
import Mathlib.Data.List.Induction
namespace QueryTemplate

open Token Fragment

/-- A token that is read by itself: no comment, join phrase, aggregation macro, `IN` or `UNION ALL`.
-/
def Token.isOrdinary (t : Token) : Bool :=
  t.kind ≠ .comment && t.kind ≠ .join && t.kind ≠ .aggregation && t.kind ≠ .membership && !isUnionAll t

/-- Tokens of some text that are read one by one. -/
def Ordinary (ts : List Token) : Prop := ∀ t ∈ ts, Lexical t ∧ t.isOrdinary = true

/-- An expression with nothing to trim off it, which is empty where its text is. -/
structure Fragment.Trimmed (f : Fragment) : Prop extends f.Clean where
  solid : Solid f.text
  empty : f.text = [] → f = {}

variable {c : Clause} {seen : List Clause} {w ts us : List Token} {t : Token} {d : Nat}
    {f : Fragment}

theorem ordinary_cons : Ordinary (t :: ts) ↔ (Lexical t ∧ t.isOrdinary = true) ∧ Ordinary ts :=
  List.forall_mem_cons

theorem Ordinary.append (hw : Ordinary w) (ht : Ordinary ts) : Ordinary (w ++ ts) :=
  List.forall_mem_append.2 ⟨hw, ht⟩

theorem kind_of_isOrdinary (h : t.isOrdinary = true) : t.kind ≠ .comment ∧ t.kind ≠ .join ∧
    t.kind ≠ .aggregation ∧ t.kind ≠ .membership ∧ isUnionAll t = false := by
  simpa [Token.isOrdinary, and_assoc] using h

theorem ne_unions_of_isOrdinary (h : t.isOrdinary = true) (hc : t.clause? = some c) :
    c ≠ .unions := by
  rintro rfl
  have hu := (kind_of_isOrdinary h).2.2.2.2
  rw [Token.clause?] at hc
  split at hc
  · rename_i hk
    rw [isUnionAll, Token.isClause, hk, Clause.ofKeyword?_eq_unions.1 hc] at hu
    cases hu
  · cases hc

namespace Fragment

theorem trimmed_empty : Trimmed {} := ⟨clean_empty, ⟨nofun, nofun⟩, fun _ ↦ rfl⟩

theorem Trimmed.pushToken (h : f.Trimmed) (ht : Lexical t) (hb : t.kind ≠ .blank)
    (hc : t.kind ≠ .comment) :
    (f.pushToken t).Trimmed := by
  have hs := ht.solid hb hc
  have hne := ht.text_ne_nil
  refine ⟨clean_pushToken f t, ?_, fun e ↦ absurd (List.append_eq_nil_iff.1 e).2 hne⟩
  by_cases hf : f.text = []
  · have : (f.pushToken t).text = t.text := by simp [Fragment.pushToken, hf, needsSpace]
    exact this ▸ hs
  · obtain ⟨a, u, hu⟩ := List.exists_cons_of_ne_nil hf
    refine ⟨fun x hx ↦ h.solid.head x ?_, fun x hx ↦ hs.last x ?_⟩
    · rw [Fragment.pushToken, hu] at hx
      rw [hu]
      exact hx
    · rw [Fragment.pushToken, List.getLast?_append, List.getLast?_eq_some_getLast hne] at hx
      rw [List.getLast?_eq_some_getLast hne]
      exact hx

theorem Trimmed.pushText (h : f.Trimmed) (s : Text) : (f.pushText ('(' :: s ++ ")")).Trimmed := by
  refine ⟨clean_pushText f _, ⟨fun x hx ↦ ?_, fun x hx ↦ ?_⟩, fun e ↦ ?_⟩
  · cases hf : f.text with
    | nil =>
      rw [Fragment.pushText, hf] at hx
      obtain rfl := Option.some.inj hx
      rfl
    | cons a u =>
      refine h.solid.head x ?_
      rw [Fragment.pushText, hf] at hx
      rw [hf]
      exact hx
  · have hl : (f.text ++ ('(' :: s ++ [')'])).getLast? = some ')' := by
      rw [← List.append_assoc, List.getLast?_concat]
    obtain rfl := Option.some.inj (hl.symm.trans hx)
    rfl
  · exact absurd (List.append_eq_nil_iff.1 e).2 (by simp)

theorem Trimmed.isEmpty (h : f.Trimmed) : f.isEmpty = true ↔ f = {} := by
  rw [Fragment.isEmpty, h.solid.trim, decide_eq_true_eq]
  refine ⟨h.empty, ?_⟩
  rintro rfl
  rfl

theorem Trimmed.take? (h : f.Trimmed) : f.take? = if f.text = [] then none else some f.text := by
  rw [Fragment.take?, h.solid.trim, h.line]
  rfl

end Fragment

@[simp] theorem written_nil : written [] = {} := rfl

theorem written_blank (h : t.isBlank = true) : written (w ++ [t]) = written w := by
  rw [written, written, inked_append, inked_cons_blank h, inked_nil, List.append_nil]

theorem written_push (h : t.isBlank = false) : written (w ++ [t]) = (written w).pushToken t := by
  rw [written, written, inked_append, inked_cons h, inked_nil, List.foldl_append]
  rfl

theorem trimmed_written (h : Ordinary w) : (written w).Trimmed := by
  induction w using List.reverseRecOn with
  | nil => exact Fragment.trimmed_empty
  | append_singleton w t ih =>
    have hw := ih fun u hu ↦ h u (List.mem_append_left _ hu)
    obtain ⟨hl, ho⟩ := h t (by simp)
    cases hb : t.isBlank with
    | true => rwa [written_blank hb]
    | false =>
      rw [written_push hb]
      exact hw.pushToken hl (by simpa [Token.isBlank] using hb) (kind_of_isOrdinary ho).1

theorem text_written (h : Ordinary w) : (written w).text = [] ↔ inked w = [] := by
  induction w using List.reverseRecOn with
  | nil => simp
  | append_singleton w t ih =>
    cases hb : t.isBlank with
    | true =>
      rw [written_blank hb, inked_append, inked_cons_blank hb, inked_nil, List.append_nil]
      exact ih fun u hu ↦ h u (List.mem_append_left _ hu)
    | false =>
      have hne := (h t (by simp)).1.text_ne_nil
      rw [written_push hb, inked_append, inked_cons hb]
      simp [Fragment.pushToken, hne]

/-- The item that is taken of tokens written one after the other. -/
theorem take?_written (h : Ordinary w) : (written w).take? = itemOf? w := by
  rw [(trimmed_written h).take?, itemOf?]
  exact if_congr (text_written h) rfl rfl

/-- What an ordinary token means where the clauses `seen` were opened. -/
theorem Draft.action_ordinary {D : Draft} (ho : t.isOrdinary = true) (hb : t.isBlank = false)
    (hseen : ∀ e ∈ Clause.keywordClauses, D.query.has e = seen.contains e)
    (hd : D.fragment.depth = d) (hn : standing d t = 0 → t.opens seen = false)
    (hp : d = 0 → t.isOpenParen = true → D.clause ≠ .source) :
    D.action t = if D.clause.isPredicate = true ∧ isConjunction t = true then .conjunction
      else if d = 0 ∧ t.isComma = true then .comma else .pushToken := by
  obtain ⟨h₁, h₂, h₃, h₄, -⟩ := kind_of_isOrdinary ho
  have hbal : D.fragment.isBalanced = decide (d = 0) :=
    Bool.eq_iff_iff.2 (by rw [isBalanced_iff hd, decide_eq_true_eq])
  cases hk : t.kind with
  | comment | join | aggregation | membership => simp_all
  | blank => simp [Token.isBlank, hk] at hb
  | clause =>
    have hcomma : t.isComma = false := by simp [isComma, hk]
    have hconj : isConjunction t = false := by simp [isConjunction, hk]
    simp only [Draft.action, hk, hcomma, hconj, hbal, Bool.false_eq_true, and_false, if_false]
    cases hw : Clause.ofKeyword? t.keyword with
    | none => rfl
    | some c =>
      refine if_pos ?_
      by_cases h0 : d = 0
      · have hop := hn (by rw [standing_of_kind (by simp [hk]), h0])
        have hcl : t.clause? = some c := by rw [Token.clause?, if_pos hk, hw]
        rw [Token.opens, hcl] at hop
        rw [hseen c (List.mem_of_find?_eq_some hw)]
        simpa [h0] using hop
      · simp [h0]
  | conjunction => simp [Draft.action, hk, isConjunction, isComma]
  | punctuation => simp [Draft.action, hk, isConjunction, hbal]
  | opening =>
    have hcomma : t.isComma = false := by simp [isComma, hk]
    have hconj : isConjunction t = false := by simp [isConjunction, hk]
    simp only [Draft.action, hk, hcomma, hconj, hbal, Bool.false_eq_true, and_false, if_false]
    refine if_neg ?_
    simpa using hp
  | joinConstraint | identifier | string | number | operator | closing | placeholder =>
    simp [Draft.action, hk, isConjunction, isComma]

theorem Draft.addItems_clause (xs : List Text) (D : Draft) : (D.addItems xs).clause = D.clause := by
  induction xs generalizing D with
  | nil => rfl
  | cons x xs ih => exact (ih (D.push x)).trans (push_clause x D)

theorem Draft.flush_written {D : Draft} (hw : Ordinary w) :
    (D.hold (written w)).flush = (D.addItems (itemOf? w).toList).hold {} := by
  rw [flush_eq (trimmed_written hw).toClean, hold_fragment, take?_written hw, addItems_hold,
    hold_hold]

theorem written_singleton (h : t.isBlank = false) : written [t] = Fragment.pushToken t {} :=
  written_push (w := []) h

/-- What is read of a clause after the items `zs` and the tokens `w`, and the depth it stands at. -/
structure Stretch (w : List Token) (d : Nat) : Prop where
  ordinary : Ordinary w
  depth : (written w).depth = d

theorem Stretch.balanced (h : Stretch w d) : (written w).isBalanced = true ↔ d = 0 :=
  isBalanced_iff h.depth

theorem stretch_nil : Stretch [] 0 := ⟨nofun, rfl⟩

theorem Stretch.push (h : Stretch w d) (ht : Lexical t ∧ t.isOrdinary = true) {e : Nat}
    (hd : depthRun d (t :: ts) = some e) :
    Stretch (w ++ [t]) (after (standing d t) t) := by
  refine ⟨h.ordinary.append (ordinary_cons.2 ⟨ht, nofun⟩), ?_⟩
  cases hb : t.isBlank with
  | true =>
    have hk : t.kind = .blank := by simpa [Token.isBlank] using hb
    rw [written_blank hb, standing_of_kind (by simp [hk]), after_of_kind (by simp [hk]), h.depth]
  | false => rw [written_push hb, (depthRun_cons hd).2 h.depth]

/-- One token of a stretch in which no clause opens. -/
theorem step_stretch {rest : Text} (us : List Token) {base : Draft} (hc : base.clause ≠ .source)
    (hseen : ∀ ys, ∀ e ∈ Clause.keywordClauses, (base.addItems ys).query.has e = seen.contains e)
    (hw : Stretch w d) (ht : Lexical t ∧ t.isOrdinary = true) {e : Nat}
    (hd : depthRun d (t :: ts) = some e) (hn : standing d t = 0 → t.opens seen = false)
    (zs : List Text) :
    ∃ w' zs', ((base.addItems zs).hold (written w)).step rest t us =
      .ok ((base.addItems zs').hold (written w'), us) ∧
      Stretch w' (after (standing d t) t) ∧
      zs ++ itemsFrom base.clause w d (t :: ts) =
          zs' ++ itemsFrom base.clause w' (after (standing d t) t) ts := by
  have hcl : ((base.addItems zs).hold (written w)).clause = base.clause := base.addItems_clause zs
  have hkcomma : t.isComma = true → standing d t = d :=
    fun h ↦ standing_of_kind (by simp [kind_of_isComma h])
  have hkconj : isConjunction t = true → t.kind = .conjunction :=
    fun h ↦ by simpa [isConjunction] using h
  have hsconj : isConjunction t = true → standing d t = d :=
    fun h ↦ standing_of_kind (by simp [hkconj h])
  cases hb : t.isBlank with
  | true =>
    have hk : t.kind = .blank := by simpa [Token.isBlank] using hb
    refine ⟨w ++ [t], zs, ?_, hw.push ht hd, ?_⟩
    · rw [written_blank hb, Draft.step, show Draft.action _ t = .skip by simp [Draft.action, hk]]
    · rw [itemsFrom_token (by simp [isComma, hk]) (by simp [isConjunction, hk])]
  | false =>
    have ha := Draft.action_ordinary (D :=
      (base.addItems zs).hold (written w)) ht.2 hb (hseen zs) hw.depth hn
      fun _ _ ↦ hcl ▸ hc
    rw [hcl] at ha
    -- a token that ends neither an item nor a predicate goes on with the expression
    have hpush : (d = 0 → t.isComma = false) →
      (d = 0 → base.clause.isPredicate = true → isConjunction t = false) →
        itemsFrom base.clause w d (t :: ts) =
            itemsFrom base.clause (w ++ [t]) (after (standing d t) t) ts := by
      intro hcomma hconj
      refine itemsFrom_token (fun h0 ↦ ?_) fun h0 hp ↦ ?_
      · exact Bool.eq_false_iff.2 fun h ↦ by simp [hcomma (hkcomma h ▸ h0)] at h
      · exact Bool.eq_false_iff.2 fun h ↦ by simp [hconj (hsconj h ▸ h0) hp] at h
    by_cases h0 : d = 0
    · subst h0
      by_cases hconj : base.clause.isPredicate = true ∧ isConjunction t = true
      · have hs : after (standing 0 t) t = 0 := by
          rw [hsconj hconj.2, after_of_kind (by simp [hkconj hconj.2])]
        refine ⟨[t], zs ++ (itemOf? w).toList, ?_, ?_, ?_⟩
        · rw [Draft.step, ha, if_pos hconj]
          simp only [Draft.conjunction, Draft.hold_fragment, hw.balanced.2 rfl, if_true]
          rw [Draft.flush_written hw.ordinary, ← Draft.addItems_append, written_singleton hb]
          rfl
        · simpa using stretch_nil.push ht hd
        · rw [itemsFrom_conjunction hconj.1 hconj.2, hs, List.append_assoc]
      · rw [if_neg hconj] at ha
        cases hcomma : t.isComma with
        | true =>
          have hs : after (standing 0 t) t = 0 := by
            rw [hkcomma hcomma, after_of_kind (by simp [kind_of_isComma hcomma])]
          refine ⟨[], zs ++ ((itemOf? w).toList ++ commaItems base.clause), ?_, ?_, ?_⟩
          · rw [Draft.step, ha, if_pos ⟨rfl, hcomma⟩]
            simp only [Draft.comma, hcl, commaItems]
            rw [Draft.flush_written hw.ordinary, ← List.append_assoc, Draft.addItems_append,
              Draft.addItems_append]
            split
            · rw [Draft.push_hold]
              rfl
            · rfl
          · rw [hs]
            exact stretch_nil
          · rw [itemsFrom_comma hcomma, hs]
            simp only [List.append_assoc]
        | false =>
          refine ⟨w ++ [t], zs, ?_, hw.push ht hd, ?_⟩
          · rw [Draft.step, ha, if_neg (by simp [hcomma]), written_push hb]
            rfl
          · rw [hpush (fun _ ↦ hcomma) fun _ hp ↦ Bool.eq_false_iff.2 fun h ↦ hconj ⟨hp, h⟩]
    · refine ⟨w ++ [t], zs, ?_, hw.push ht hd, ?_⟩
      · have hbal : (written w).isBalanced = false :=
          Bool.eq_false_iff.2 fun h ↦ h0 (hw.balanced.1 h)
        rw [Draft.step, ha, written_push hb]
        by_cases hconj : base.clause.isPredicate = true ∧ isConjunction t = true
        · rw [if_pos hconj]
          simp only [Draft.conjunction, Draft.hold_fragment, hbal]
          rfl
        · rw [if_neg hconj, if_neg (by simp [h0])]
          rfl
      · rw [hpush (fun h ↦ absurd h h0) fun h ↦ absurd h h0]

/-- Ordinary tokens in which no clause opens put their items into the clause that is open. -/
theorem parse_stretch (rest : Text) (us : List Token) {base : Draft} (hc : base.clause ≠ .source)
    (hseen : ∀ ys, ∀ e ∈ Clause.keywordClauses, (base.addItems ys).query.has e = seen.contains e)
    (hw : Stretch w d) (hts : Ordinary ts) (hd : depthRun d ts = some 0)
    (hcov : Covered (·.opens seen) d ts) (zs : List Text) :
    ∃ D, parseTokens rest (ts ++ us) ((base.addItems zs).hold (written w)) = parseTokens rest us D ∧
      D.flush = (base.addItems (zs ++ itemsFrom base.clause w d ts)).hold {} ∧
          D.fragment.isBalanced = true ∧
      ∃ ys, D.query = (base.addItems ys).query := by
  induction ts generalizing w d zs with
  | nil =>
    obtain rfl := Option.some.inj hd
    refine ⟨_, rfl, ?_, hw.balanced.2 rfl, zs, rfl⟩
    rw [Draft.flush_written hw.ordinary, itemsFrom_nil, Draft.addItems_append]
  | cons t ts ih =>
    obtain ⟨ht, hts⟩ := ordinary_cons.1 hts
    obtain ⟨hn, hcov'⟩ := covered_cons.1 hcov
    obtain ⟨w', zs', hstep, hw', hitems⟩ := step_stretch (ts ++ us) hc hseen hw ht hd hn zs
    obtain ⟨D, h₁, h₂, h₃⟩ := ih hw' hts (depthRun_cons (f := {}) hd).1 hcov' zs'
    refine ⟨D, ?_, ?_, h₃⟩
    · rw [List.cons_append, parseTokens_step hstep, h₁]
    · rw [h₂, hitems]

end QueryTemplate
