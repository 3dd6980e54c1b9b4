import QueryTemplate.Proofs.Query.Items
namespace QueryTemplate

open Token Fragment

/-- Tokens of a query that close the `d` parentheses left open before them. What follows takes no
part of them. -/
structure Placed (d : Nat) (ts : List Token) : Prop where
  balanced : depthRun d ts = some 0
  tokens : ∀ t ∈ ts, Lexical t ∧ Plain t
  lexed : ∃ z, ahead z = [] ∧ (∀ t ∈ z, t.kind ≠ .comment) ∧ Lexed (ts ++ z)
  apart : PointsApart none ts

namespace Placed

variable {d k : Nat} {t o e : Token} {a b ts : List Token}

theorem right (h : Placed d (a ++ b)) (ha : depthRun d a = some k) : Placed k b := by
  obtain ⟨z, h₁, h₂, h₃⟩ := h.lexed
  have hb := h.balanced
  rw [depthRun_append, ha, Option.bind_some] at hb
  rw [List.append_assoc] at h₃
  exact ⟨hb, fun t ht ↦ h.tokens t (List.mem_append_right _ ht), ⟨z, h₁, h₂, h₃.suffix⟩,
    h.apart.right⟩

theorem left (h : Placed d (a ++ t :: b)) (ha : depthRun d a = some 0)
    (ht : ∀ us, ahead (t :: us) = []) :
    Placed d a := by
  obtain ⟨z, -, h₂, h₃⟩ := h.lexed
  refine ⟨ha, fun u hu ↦ h.tokens u (List.mem_append_left _ hu),
    ⟨t :: (b ++ z), ht _, ?_, by simpa using h₃⟩, h.apart.left⟩
  intro u hu
  rw [← List.cons_append] at hu
  rcases List.mem_append.1 hu with hu | hu
  · exact (h.tokens u (List.mem_append_right _ hu)).2.1
  · exact h₂ u hu

theorem tail (h : Placed d (t :: ts)) : Placed (after (standing d t) t) ts := by
  have hb := (depthRun_cons (f := {}) h.balanced).1
  obtain ⟨z, h₁, h₂, h₃⟩ := h.lexed
  exact ⟨hb, fun u hu ↦ h.tokens u (List.mem_cons_of_mem _ hu), ⟨z, h₁, h₂, h₃.tail⟩,
    PointsApart.right (a := [t]) h.apart⟩

theorem blanks {gs : List Token} (hg : ∀ t ∈ gs, t.isBlank = true) (h : Placed d (gs ++ ts)) :
    Placed d ts :=
  h.right (depthRun_blanks hg)

/-- What parentheses enclose, and what follows them. -/
theorem group (h : Placed d (a ++ o :: (b ++ e :: ts))) (ha : depthRun d a = some d)
    (ho : o.isOpenParen = true) (he : e.isCloseParen = true) (hb : Balanced b) :
    Placed 0 b ∧ Placed d ts := by
  obtain ⟨hk, -, hbl, hw⟩ := isBlank_of_isCloseParen he
  have hbal := h.balanced
  rw [depthRun_append, ha, Option.bind_some, depthRun_group ho he hb] at hbal
  have h' : Placed d ((a ++ o :: (b ++ [e])) ++ ts) := by simpa using h
  have hgr : depthRun d (a ++ o :: (b ++ [e])) = some d := by
    rw [depthRun_append, ha, Option.bind_some, depthRun_group ho he hb]
    rfl
  refine ⟨?_, h'.right hgr⟩
  have hopen : Placed (d + 1) (b ++ e :: ts) := by
    have h : Placed d ((a ++ [o]) ++ (b ++ e :: ts)) := by simpa using h
    refine h.right ?_
    rw [depthRun_append, ha, Option.bind_some]
    simp [depthRun, ho]
  obtain ⟨z, -, h₂, h₃⟩ := hopen.lexed
  refine ⟨hb, fun u hu ↦ hopen.tokens u (List.mem_append_left _ hu),
    ⟨e :: (ts ++ z), ahead_symbol hbl hw _, ?_, by simpa using h₃⟩,
    hopen.apart.left⟩
  intro u hu
  rw [← List.cons_append] at hu
  rcases List.mem_append.1 hu with hu | hu
  · exact (hopen.tokens u (List.mem_append_right _ hu)).2.1
  · exact h₂ u hu

/-- The bodies in which clauses are opened are placed as what they stand in. -/
theorem of_mem_innerLevels {source : Bool} {last : Text} (h : Placed d ts)
    (hb : b ∈ innerLevels source d last ts) :
    Placed 0 b := by
  fun_induction innerLevels source d last ts with
  | case1 => cases hb
  | case2 source d last t ts ht ih =>
    have hk : t.kind = .blank := by simpa [Token.isBlank] using ht
    have hs : after (standing d t) t = d := by simp [after, standing, isOpenParen, isCloseParen, hk]
    exact ih (hs ▸ h.tail) hb
  | case3 source d last t ts ht hm x us hg ihx ih =>
    obtain ⟨gs, o, e, rfl, hgs, ho, he, hbal⟩ := groupAhead_eq_some hg
    have hs : depthRun d (t :: gs) = some d := by
      simpa [depthRun, isOpenParen, isCloseParen, hm] using depthRun_blanks hgs
    obtain ⟨hx, hus⟩ := Placed.group (a := t :: gs) (by simpa using h) hs ho he hbal
    rcases List.mem_append.1 hb with hb | hb
    · split at hb
      · exact ihx hx hb
      · exact List.mem_singleton.1 hb ▸ hx
    · exact ih hus hb
  | case4 source d last t ts ht hm hg ih =>
    have hs : after (standing d t) t = d := by simp [after, standing, isOpenParen, isCloseParen, hm]
    exact ih (hs ▸ h.tail) hb
  | case5 source d last t ts ht hm hraw x us hc ih =>
    simp only [Bool.and_eq_true, decide_eq_true_eq] at hraw
    obtain ⟨hbal, e, he, rfl⟩ := depthRun_of_closing? hc
    exact ih (h.group (a := []) rfl hraw.1.2 he hbal).2 hb
  | case6 => cases hb
  | case7 source d last t ts ht hm hraw ih => exact ih h.tail hb

theorem joinless (h : Placed d ts) : ∀ t ∈ ts, t.kind ≠ .join := fun t ht ↦ (h.tokens t ht).2.2.2.1

variable {c : Clause} {n : Bool}

/-- The tokens of a clause are ready to be written anew if the bodies in them are. -/
theorem pending (h : Placed 0 ts) (hc : Covered isHeading 0 ts)
    (hcom : c = .slot .prewhere ∨ c = .slot .aliases → Covered isComma 0 ts)
    (hs : c = .source → ∀ o ∈ (ts.dropWhile isBlank).head?, o.isOpenParen = false ∧
      o.isComma = false) (hl : ∀ b ∈ innerLevels (c = .source) 0 [] ts, ∃ q b', Body b q b') :
    Pending c false {} none 0 ts :=
  ⟨endsIn_empty, rfl, h.balanced, covered_isBreak hc h.joinless, hcom,
    fun t ht ↦ ⟨(h.tokens t ht).1, (h.tokens t ht).2.steady⟩,
    .inl h.joinless, h.lexed, h.apart, fun he _ _ ↦ hs he, hl⟩

end Placed

variable {c : Clause} {n : Bool} {ts : List Token}

theorem Pending.dropBlank (h : Pending c n {} none 0 ts) :
    Pending c n {} none 0 (ts.dropWhile isBlank) := by
  induction ts with
  | nil => exact h
  | cons t ts ih =>
    cases ht : t.isBlank with
    | true =>
      rw [List.dropWhile_cons_of_pos ht]
      exact ih (h.blank ht)
    | false => rwa [List.dropWhile_cons_of_neg (by simp [ht])]

/-- What follows a subquery in `FROM` is one item at most. -/
theorem exists_aliases (h : Pending (.slot .aliases) n {} none 0 ts) :
    ∃ xs cells, Listed (.slot .aliases) n ts xs 0 cells ∧ cells.length ≤ 1 := by
  have hbare : ∀ b, b.length < ts.length → Pending .root false {} none 0 b →
      ∃ q b', Body b q b' := by
    intro b _ hp
    obtain ⟨xs, k, cells, hlist⟩ := exists_listed hp
    exact ⟨_, _, body_of_listed hp.balanced hlist⟩
  obtain ⟨orig, tail, its, g, hrun, hg⟩ := exists_run hbare (Nat.le_refl _) Fragment.clean_empty h
  obtain ⟨z, hz, hx, hlex⟩ := h.lexed
  have htext : g.text = textOf its := hrun.rewrites.text
  -- neither a comma nor a predicate can follow
  have htail : tail = [] := by
    cases hrun.rest with
    | done => rfl
    | comma _ hc => exact absurd rfl hc.2
    | conjunction _ hc => cases hc
  rw [hrun.split, htail]
  by_cases hne : g.text = []
  · obtain rfl := hrun.rewrites.empty (htext ▸ hne)
    exact ⟨_, _, Listed.nil.blanks (hrun.rewrites.blanks rfl), Nat.zero_le 1⟩
  · have hgood := hrun.good hne h.tokens hz hx hlex
    exact ⟨_, _, .cons hrun.rewrites hg hgood .nil, Nat.le_refl 1⟩

end QueryTemplate
