import QueryTemplate.Proofs.Token.Family
namespace QueryTemplate
namespace Recognizer

theorem Within.notAhead {p : Char → Bool} {a : Recognizer} (h : Within p a) :
    Within p (notAhead a) where
  toSplits := .notAhead a
  map {u v} hu hv := by
    simp only [Recognizer.notAhead, h.map hu hv, Option.isSome_map]
    split <;> rfl

theorem exactly_eq {w : Text} {n : Nat} (h : w.length = n) (s : Text) :
    exactly w s = if s.take n = w then some (s.drop n) else none := by
  cases e : exactly w s with
  | some r =>
    obtain rfl := Text.afterPrefix?_eq_some_iff.1 e
    rw [List.take_left' h, List.drop_left' h, if_pos rfl]
  | none =>
    rw [if_neg]
    rintro rfl
    rw [exactly, Text.afterPrefix?_eq_some_iff.2 (List.take_append_drop n s).symm] at e
    cases e

theorem oneOf_exactly {ws : List Text} {n : Nat} (h : ∀ w ∈ ws, w.length = n) (s : Text) :
    oneOf (ws.map exactly) s = if s.take n ∈ ws then some (s.drop n) else none := by
  induction ws with
  | nil => rfl
  | cons w ws ih =>
    have ih := ih fun v hv ↦ h v (List.mem_cons_of_mem _ hv)
    simp only [oneOf, List.map_cons, List.findSome?_cons] at ih ⊢
    rw [exactly_eq (h w List.mem_cons_self), ih]
    by_cases e : s.take n = w <;> simp [e]

end Recognizer

namespace Grammar

open Recognizer

/-- The operators of two characters. -/
def pairs : List Text := ["=>", "||", ">=", "<=", "==", "!=", "<>", "->", "::"]

def singles : List Text := ["-", "+", "/", "%", "*", "=", "<", ">", ".", "!"]

theorem operator_eq (s : Text) : operator s = if s.take 2 ∈ pairs then some (s.drop 2)
    else if s.take 1 ∈ singles then some (s.drop 1) else none := by
  have h : operator s = (oneOf (pairs.map exactly) s).or (oneOf (singles.map exactly) s) := by
    simp only [operator, oneOf, ← List.findSome?_append, ← List.map_append]
    rfl
  rw [h, oneOf_exactly (n := 2) (by decide), oneOf_exactly (n := 1) (by decide)]
  split <;> rfl

theorem operator_eq_some_iff {u r : Text} : operator (u ++ r) = some r ↔
    u ∈ pairs ∨ u ∈ singles ∧ (u ++ r).take 2 ∉ pairs := by
  have h₂ : ∀ w ∈ pairs, w.length = 2 := by decide
  have h₁ : ∀ w ∈ singles, w.length = 1 := by decide
  rw [operator_eq]
  constructor
  · intro h
    split at h
    · rename_i hp
      have hl := h₂ _ hp
      refine .inl ?_
      have e := List.take_append_drop 2 (u ++ r)
      rw [Option.some.inj h] at e
      rwa [List.append_cancel_right e] at hp
    · split at h
      · rename_i hp hs
        have e := List.take_append_drop 1 (u ++ r)
        rw [Option.some.inj h] at e
        rw [List.append_cancel_right e] at hs
        exact .inr ⟨hs, hp⟩
      · cases h
  · rintro (h | ⟨h, hp⟩)
    · rw [List.take_left' (h₂ u h), if_pos h, List.drop_left' (h₂ u h)]
    · rw [if_neg hp, List.take_left' (h₁ u h), if_pos h, List.drop_left' (h₁ u h)]

theorem comment_eq_none {s : Text} (h₁ : s.take 2 ≠ "--".toList)
    (h₂ : s.take 2 = "/*".toList → commentEnd (s.drop 2) = none) : comment s = none := by
  simp only [comment, oneOf, List.findSome?_cons, List.findSome?_nil, lineComment, blockComment, seq,
    exactly_eq (w := "--") (n := 2) rfl, exactly_eq (w := "/*") (n := 2) rfl, if_neg h₁, Option.bind_none]
  split
  · rename_i e
    split at e
    · rw [Option.bind_some, h₂ (by assumption)] at e
      cases e
    · cases e
  · rfl

theorem number_point {r : Text} : number ('.' :: r) = none ↔ Text.Stops Char.isDigit r := by
  have hp : ((exactly ".").seq scaled) ('.' :: r) = scaled r := rfl
  have h : number ('.' :: r) = scaled r := by
    rw [number_eq]
    simp only [oneOf, List.findSome?_cons, List.findSome?_nil, hp]
    cases scaled r <;> rfl
  rw [h, ← many1_eq_none_iff]
  simp only [scaled, seq, digits]
  cases many1 Char.isDigit r <;> simp [maybe]

/-- Characters that a token before them never takes, unless it is a number and they are a point. -/
def isDelimiter (c : Char) : Bool :=
  Text.isBlank c || c = '(' || c = ')' || c = '[' || c = ']' || c = ',' || c = ';' || c = '.'

theorem isDelimiter_iff {c : Char} : isDelimiter c = true ↔ (c = ' ' ∨ c = '\t' ∨ c = '\r' ∨
    c = '\n') ∨ c = '(' ∨ c = ')' ∨ c = '[' ∨ c = ']' ∨ c = ',' ∨ c = ';' ∨ c = '.' := by
  simp [isDelimiter, isBlank_iff, or_assoc]

/-- A text is empty or starts with a delimiter. -/
def Delimited (r : Text) : Prop := ∀ c ∈ r.head?, isDelimiter c = true

theorem stops_of_delimited {p : Char → Bool} (hp : ∀ c, isDelimiter c = true → p c = false)
    {r : Text} (h : Delimited r) : Text.Stops p r := fun c hc ↦ hp c (h c hc)

theorem stops_congr {p : Char → Bool} {r r' : Text} (h : r'.head? = r.head?)
    (hr : Text.Stops p r) : Text.Stops p r' := by rwa [Text.Stops, h]

theorem stops_of_head_or_delimited {p : Char → Bool} (hp : ∀ c, isDelimiter c = true → p c = false)
    {r r' : Text} (h : r'.head? = r.head? ∨ Delimited r') (hr : Text.Stops p r) : Text.Stops p r' :=
  h.elim (stops_congr · hr) (stops_of_delimited hp)

/-- A text is empty or starts with a delimiter or with a letter, of which no sign and no quoted text
before it takes note. -/
def Parted (r : Text) : Prop := ∀ c ∈ r.head?, isDelimiter c = true ∨ startsWord c = true

theorem Delimited.parted {r : Text} (h : Delimited r) : Parted r := fun c hc ↦ .inl (h c hc)

/-- A text that starts with no quote. -/
def Unquoted (r : Text) : Prop := ∀ c ∈ r.head?, c ≠ '\'' ∧ c ≠ '`' ∧ c ≠ '"'

theorem Parted.unquoted {r : Text} (h : Parted r) : Unquoted r := by
  intro c hc
  refine ⟨?_, ?_, ?_⟩ <;> rintro rfl <;> exact absurd (h _ hc) (by decide)

theorem isDigit_of_parted {c : Char} (h : isDelimiter c = true ∨ startsWord c = true) :
    c.isDigit = false := by
  rcases h with h | h
  · rcases isDelimiter_iff.1 h with
      (rfl | rfl | rfl | rfl) | rfl | rfl | rfl | rfl | rfl | rfl | rfl <;> rfl
  · cases hd : c.isDigit with
    | false => rfl
    | true => rw [not_startsWord_of_isDigit hd] at h; cases h

theorem munch_operator_congr {u r r' : Text} (h : munch (u ++ r) = some (⟨.operator, u⟩, r))
    (hd : r'.head? = r.head? ∨ Parted r')
    (hc : u = ['/'] → ∀ x, r' = '*' :: x → commentEnd x = none) :
    munch (u ++ r') = some (⟨.operator, u⟩, r') := by
  obtain ⟨ho, hcom, hnum⟩ := munch_operator_iff.1 h
  rw [munch_operator_iff, operator_eq_some_iff]
  have hpair : u ∈ pairs → comment (u ++ r') = none ∧ number (u ++ r') = none := by
    intro hu
    have hl : ∀ w ∈ pairs, w.length = 2 ∧ w ≠ "--".toList ∧ w ≠ "/*".toList ∧
      ∀ c ∈ w.head?, startsKind .number c = false := by decide
    obtain ⟨h₀, h₁, h₂, h₃⟩ := hl u hu
    refine ⟨comment_eq_none ?_ ?_, ?_⟩
    · rwa [List.take_left' h₀]
    · exact fun e ↦ absurd e (by rwa [List.take_left' h₀])
    · cases u with
      | nil => cases h₀
      | cons c u => exact eq_none_of_starts (k := .number) (by simp [classes]) (h₃ c rfl) _
  rcases operator_eq_some_iff.1 ho with hu | ⟨hu, hp⟩
  · exact ⟨.inl hu, hpair hu⟩
  · obtain ⟨c, rfl⟩ : ∃ c, u = [c] := by
      have : ∀ w ∈ singles, w.length = 1 := by decide
      exact List.length_eq_one_iff.1 (this u hu)
    have htake : ∀ x : Text, ([c] ++ x).take 2 = c :: x.head?.toList := fun x ↦ by cases x <;> simp
    have hdel : ∀ w ∈ pairs, w.length = 2 ∧ ∀ d ∈ w[1]?, isDelimiter d = false ∧ startsWord d = false := by
      decide
    refine ⟨.inr ⟨hu, fun hm ↦ ?_⟩, comment_eq_none (fun e ↦ ?_) fun e ↦ ?_, ?_⟩
    · rcases hd with hd | hd
      · rw [htake, hd, ← htake] at hm
        exact hp hm
      · cases r' with
        | nil => cases (hdel _ hm).1
        | cons d x =>
          obtain ⟨h₁, h₂⟩ := (hdel _ hm).2 d rfl
          simpa [h₁, h₂] using hd d rfl
    · rcases hd with hd | hd
      · rw [htake, hd, ← htake] at e
        cases r with
        | nil => cases e
        | cons d x =>
          obtain ⟨rfl, rfl⟩ : c = '-' ∧ d = '-' := by simpa using e
          cases hcom
      · cases r' with
        | nil => cases e
        | cons d x =>
          obtain ⟨rfl, rfl⟩ : c = '-' ∧ d = '-' := by simpa using e
          rcases hd _ rfl with h | h <;> cases h
    · cases r' with
      | nil => cases e
      | cons d x =>
        obtain ⟨rfl, rfl⟩ : c = '/' ∧ d = '*' := by simpa using e
        exact hc rfl x rfl
    · have hnum' : ∀ w ∈ singles, w = ['.'] ∨ ∀ c ∈ w.head?, startsKind .number c = false := by
        decide
      rcases hnum' _ hu with e | e
      · obtain rfl : c = '.' := by simpa using e
        exact number_point.2 (hd.elim (stops_congr · (number_point.1 hnum)) fun hd d h ↦
          isDigit_of_parted (hd d h))
      · exact eq_none_of_starts (k := .number) (by simp [classes]) (e c rfl) _

theorem length_commentEnd {s t : Text} (h : commentEnd s = some t) : t.length + 2 ≤ s.length := by
  fun_induction commentEnd s with
  | case1 s => simp_all
  | case2 c s _ ih => simpa using Nat.le_succ_of_le (ih h)
  | case3 => cases h

theorem commentEnd_eq_some {s r : Text} (h : commentEnd s = some r) :
    ∃ y, s = y ++ ['*', '/'] ++ r := by
  fun_induction commentEnd s with
  | case1 s => exact ⟨[], by rw [← Option.some.inj h]; rfl⟩
  | case2 c s _ ih =>
    obtain ⟨y, e⟩ := ih h
    exact ⟨c :: y, by rw [e]; rfl⟩
  | case3 => cases h

theorem commentEnd_cons {c : Char} {s : Text} (h : ∀ y, c = '*' → s ≠ '/' :: y) :
    commentEnd (c :: s) = commentEnd s := by
  rw [commentEnd.eq_def]
  split
  · rename_i e
    obtain ⟨rfl, rfl⟩ := List.cons.inj e
    exact absurd rfl (h _ rfl)
  · rename_i e
    rw [(List.cons.inj e).2]
  · rename_i e
    cases e

/-- A block comment ends at the first end mark, whatever follows. -/
theorem commentEnd_congr {x r : Text} (h : commentEnd (x ++ r) = some r) (r' : Text) :
    commentEnd (x ++ r') = some r' := by
  have hself : ¬ commentEnd r = some r := fun h ↦ by
    have := length_commentEnd h
    omega
  induction x with
  | nil => exact absurd h hself
  | cons c x ih =>
    cases x with
    | nil =>
      by_cases hc : ∃ y, c = '*' ∧ r = '/' :: y
      · obtain ⟨y, rfl, rfl⟩ := hc
        have e : y = '/' :: y := Option.some.inj h
        exact absurd (congrArg List.length e) (by simp)
      · rw [List.cons_append, List.nil_append, commentEnd_cons (by grind)] at h
        exact absurd h hself
    | cons d x =>
      by_cases hc : c = '*' ∧ d = '/'
      · obtain ⟨rfl, rfl⟩ := hc
        have e : x ++ r = r := Option.some.inj h
        obtain rfl : x = [] := by simpa using e
        rfl
      · have hn : ∀ s y : Text, c = '*' → d :: (x ++ s) ≠ '/' :: y := by grind
        rw [List.cons_append, List.cons_append, commentEnd_cons (hn _)] at h ⊢
        exact ih h

theorem length_quotedRest {q : Char} {b : Bool} {s t : Text} (h : quotedRest q b s = some t) :
    t.length < s.length := by
  fun_induction quotedRest q b s <;> grind

/-- A quoted text ends at its quote, whatever follows, unless doubled quotes stand for one. -/
theorem quotedRest_congr {q : Char} {b : Bool} (hq : q ≠ '\\') {x r r' : Text}
    (h : quotedRest q b (x ++ r) = some r) (hr : r'.head? = r.head? ∨ Text.Stops (· = q) r') :
    quotedRest q b (x ++ r') = some r' := by
  have hself : ∀ {s}, s <:+ r → quotedRest q b s ≠ some r := fun hs h ↦ by
    have := length_quotedRest h
    have := hs.length_le
    omega
  induction hn : x.length using Nat.strongRecOn generalizing x with
  | ind n ih =>
    match x with
    | [] => exact absurd h (hself List.suffix_rfl)
    | [c] =>
      obtain ⟨rfl, hb⟩ : c = q ∧ (b = true → Text.Stops (· = q) r) := by
        cases r with
        | nil =>
          simp only [List.append_nil, quotedRest] at h
          split at h
          · exact ⟨by assumption, fun _ ↦ Text.stops_nil _⟩
          · cases h
        | cons d s =>
          simp only [List.cons_append, List.nil_append, quotedRest] at h
          split at h
          · exact absurd h (hself (List.suffix_cons _ _))
          · split at h
            · split at h
              · exact absurd h (hself (List.suffix_cons _ _))
              · refine ⟨by assumption, fun hb ↦ ?_⟩
                simpa [hb] using ‹¬ (b && decide (d = q)) = true›
            · exact absurd h (hself List.suffix_rfl)
      have hr' : b = true → Text.Stops (· = c) r' := fun h ↦ hr.elim (stops_congr · (hb h)) id
      cases r' with
      | nil => simp [quotedRest]
      | cons d s =>
        have : ¬ (b = true ∧ d = c) := by
          rintro ⟨h₁, rfl⟩
          simpa using hr' h₁
        simp [quotedRest, hq, this]
    | c :: d :: x =>
      simp only [List.cons_append, quotedRest] at h ⊢
      split at h
      · rename_i hc
        rw [if_pos hc]
        exact ih x.length (by simp at hn; omega) h rfl
      · rename_i hc
        rw [if_neg hc]
        split at h
        · rename_i hcq
          rw [if_pos hcq]
          split at h
          · rename_i hb
            rw [if_pos hb]
            exact ih x.length (by simp at hn; omega) h rfl
          · have := congrArg List.length (Option.some.inj h)
            simp at this
            omega
        · rename_i hcq
          rw [if_neg hcq]
          exact ih (d :: x).length (by simp at hn ⊢; omega) h rfl

/-- The characters of placeholders without braces. -/
def isPlaceholderChar (c : Char) : Bool := Text.isNameChar c || c = '$'

theorem within_aggregationNames {p : Char → Bool}
    (hp : ∀ c, Text.isNameChar c = true → p c = true) :
    Within p (oneOf (aggregationNames.map exactly)) := by
  refine .oneOf fun r hr ↦ ?_
  obtain ⟨w, hw, rfl⟩ := List.mem_map.1 hr
  have h : ∀ w ∈ aggregationNames, ∀ c ∈ w, Text.isNameChar c = true := by decide
  exact .exactly fun c hc ↦ hp c (h w hw c hc)

theorem within_aggregation : Within isPlaceholderChar aggregation :=
  have h : ∀ c, Text.isNameChar c = true → isPlaceholderChar c = true := fun c h ↦ by
    simp [isPlaceholderChar, h]
  (Within.exactly (by decide)).seq ((within_aggregationNames h).seq (.notAhead (.one h)))

theorem stops_name_of_stops_placeholder {r : Text} (h : Text.Stops isPlaceholderChar r) :
    Text.Stops Text.isNameChar r := fun c hc ↦ by
  have := h c hc
  simp only [isPlaceholderChar, Bool.or_eq_false_iff] at this
  exact this.1

theorem munch_aggregation_congr {u r r' : Text} (h : munch (u ++ r) = some (⟨.aggregation, u⟩, r))
    (hr : Text.Stops Text.isNameChar r') : munch (u ++ r') = some (⟨.aggregation, u⟩, r') := by
  rw [munch_aggregation_iff] at h ⊢
  obtain ⟨s, h₁, h₂⟩ := Option.bind_eq_some_iff.1 h
  obtain ⟨s', h₃, h₄⟩ := Option.bind_eq_some_iff.1 h₂
  obtain ⟨rfl, hs⟩ := boundary_eq_some_iff.1 h₄
  have hd := Text.afterPrefix?_eq_some_iff.1 h₁
  obtain ⟨e, he, hx⟩ := List.exists_of_findSome?_eq_some h₃
  obtain ⟨w, hw, rfl⟩ := List.mem_map.1 he
  obtain rfl := Text.afterPrefix?_eq_some_iff.1 hx
  obtain rfl : u = '$' :: w := (List.append_left_inj r).1 (hd.trans rfl)
  have hn : ∀ w ∈ aggregationNames, ∀ c ∈ w, Text.isNameChar c = true := by decide
  have hin := within_aggregationNames fun _ ↦ id
  rw [hin.map (hn w hw) hs, Option.map_eq_some_iff] at h₃
  obtain ⟨y, hy, e⟩ := h₃
  obtain rfl : y = [] := by simpa using e
  have h₁' : exactly "$" ('$' :: w ++ r') = some (w ++ r') := rfl
  have h₃' : oneOf (aggregationNames.map exactly) (w ++ r') = some r' := by
    rw [hin.map (hn w hw) hr, hy]
    rfl
  rw [aggregation, seq, h₁', Option.bind_some, seq, h₃']
  exact boundary_eq_some_iff.2 ⟨rfl, hr⟩

/-- A placeholder in braces, the only one with which a name goes on, is read alike before any text. -/
theorem munch_placeholder_congr {u r r' : Text} (h : munch (u ++ r) = some (⟨.placeholder, u⟩, r))
    (hr : ¬Text.Stops isPlaceholderChar r ∨ r'.head? = r.head? ∨ Delimited r') :
    munch (u ++ r') = some (⟨.placeholder, u⟩, r') := by
  have hdel : ∀ c, isDelimiter c = true → isPlaceholderChar c = false := by
    intro c hc
    rcases isDelimiter_iff.1 hc with
      (rfl | rfl | rfl | rfl) | rfl | rfl | rfl | rfl | rfl | rfl | rfl <;> rfl
  rw [munch_placeholder_iff] at h ⊢
  obtain ⟨hp, ha⟩ := h
  simp only [placeholder, oneOf, List.findSome?_cons, List.findSome?_nil] at hp ⊢
  split at hp
  · rename_i s e
    obtain rfl := Option.some.inj hp
    obtain ⟨s₁, h₁, h₂⟩ := Option.bind_eq_some_iff.1 e
    obtain ⟨s₂, h₃, h₄⟩ := Option.bind_eq_some_iff.1 h₂
    have e₁ := Text.afterPrefix?_eq_some_iff.1 h₁
    have e₂ := Text.afterPrefix?_eq_some_iff.1 h₄
    obtain ⟨x, hx, rfl⟩ : ∃ x : Text, (∀ c ∈ x, decide (c ≠ '}') = true) ∧ s₁ = x ++ s₂ := by
      refine ⟨s₁.takeWhile (· ≠ '}'), fun c ↦ Text.mem_takeWhile, ?_⟩
      rw [← Option.some.inj h₃, List.takeWhile_append_dropWhile]
    subst e₂
    obtain rfl : u = '$' :: '{' :: (x ++ ['}']) := (List.append_left_inj s).1 (e₁.trans (by simp))
    have hm : (x ++ '}' :: r').dropWhile (· ≠ '}') = '}' :: r' :=
      Text.dropWhile_append_stops hx (by simp)
    have hb : ((exactly "$\x7b").seq ((many (· ≠ '}')).seq (exactly "\x7d")))
        ('$' :: '{' :: (x ++ '}' :: r')) = some r' := by
      have : exactly "$\x7b" ('$' :: '{' :: (x ++ '}' :: r')) = some (x ++ '}' :: r') := rfl
      rw [seq, this, Option.bind_some, seq, many, hm]
      rfl
    have hu : '$' :: '{' :: (x ++ ['}']) ++ r' = '$' :: '{' :: (x ++ '}' :: r') := by simp
    rw [hu, hb]
    exact ⟨rfl, rfl⟩
  · split at hp
    · rename_i s e
      obtain rfl := Option.some.inj hp
      obtain ⟨s₁, h₁, h₂⟩ := Option.bind_eq_some_iff.1 e
      have e₁ := Text.afterPrefix?_eq_some_iff.1 h₁
      obtain ⟨d, hd, hall, hs, rfl⟩ := many1_eq_some_iff.1 h₂
      obtain rfl : u = '$' :: d := (List.append_left_inj s).1 (e₁.trans rfl)
      have hs' : Text.Stops isPlaceholderChar r' :=
        stops_of_head_or_delimited hdel (hr.resolve_left (· hs)) hs
      have hu : ∀ c ∈ '$' :: d, isPlaceholderChar c = true := List.forall_mem_cons.2 ⟨rfl, hall⟩
      rw [within_aggregation.map hu hs, Option.map_eq_none_iff] at ha
      rw [within_aggregation.map hu hs', ha]
      obtain ⟨c, d, rfl⟩ := List.exists_cons_of_ne_nil hd
      have hc : '{' ≠ c := by
        rintro rfl
        cases hall _ List.mem_cons_self
      have hb : ((exactly "$\x7b").seq ((many (· ≠ '}')).seq (exactly "\x7d")))
          ('$' :: c :: d ++ r') = none := by
        simp [seq, exactly, Text.afterPrefix?, hc]
      have hm : ((exactly "$").seq (many1 fun c ↦ Text.isNameChar c || c = '$'))
          ('$' :: c :: d ++ r') = some r' :=
        many1_eq_some_iff.2 ⟨c :: d, hd, hall, hs', rfl⟩
      rw [hb, hm]
      exact ⟨rfl, rfl⟩
    · cases hp

theorem quoted_congr {q : Char} {b : Bool} (hq : q ≠ '\\') {u r r' : Text}
    (h : quoted q b (u ++ r) = some r) (hr : r'.head? = r.head? ∨ Text.Stops (· = q) r') :
    u.head? = some q ∧ quoted q b (u ++ r') = some r' := by
  obtain ⟨s, h₁, h₂⟩ := Option.bind_eq_some_iff.1 h
  obtain ⟨x, rfl⟩ := (splits_quotedRest q b).suffix h₂
  obtain ⟨c, s, e, hc⟩ := (Starts.one (p := (· = q))).start h₁
  obtain rfl : c = q := by simpa using hc
  obtain rfl : s = x ++ r := by simpa [e, one] using h₁
  obtain rfl : u = c :: x := (List.append_left_inj r).1 (e.trans rfl)
  refine ⟨rfl, ?_⟩
  have h₁' : one (· = c) (c :: x ++ r') = some (x ++ r') := by simp [one]
  rw [quoted, seq, h₁', Option.bind_some, quotedRest_congr hq h₂ hr]

theorem quoted_of_head_ne {q c : Char} {b : Bool} {u : Text} (h : u.head? = some c) (hc : c ≠ q)
    (r : Text) : quoted q b (u ++ r) = none := by
  obtain ⟨x, rfl⟩ := List.head?_eq_some_iff.1 h
  simp [quoted, seq, one, hc]

theorem munch_string_congr {u r r' : Text} (h : munch (u ++ r) = some (⟨.string, u⟩, r))
    (hr : r'.head? = r.head? ∨ Unquoted r') : munch (u ++ r') = some (⟨.string, u⟩, r') := by
  rw [munch_string_iff] at h ⊢
  have hq : ∀ q, q = '\'' ∨ q = '`' ∨ q = '"' → r'.head? = r.head? ∨ Text.Stops (· = q) r' := by
    refine fun q hq ↦ hr.imp_right fun h c hc ↦ ?_
    rw [decide_eq_false_iff_not]
    rintro rfl
    obtain ⟨h₁, h₂, h₃⟩ := h c hc
    simp [h₁, h₂, h₃] at hq
  simp only [string, oneOf, List.findSome?_cons, List.findSome?_nil] at h ⊢
  split at h
  · rename_i e
    obtain rfl := Option.some.inj h
    rw [(quoted_congr (by decide) e (hq _ (by simp))).2]
  split at h
  · rename_i e
    obtain rfl := Option.some.inj h
    obtain ⟨hu, h'⟩ := quoted_congr (by decide) e (hq _ (by simp))
    rw [quoted_of_head_ne hu (by decide), h']
  split at h
  · rename_i e
    obtain rfl := Option.some.inj h
    obtain ⟨hu, h'⟩ := quoted_congr (by decide) e (hq _ (by simp))
    rw [quoted_of_head_ne hu (by decide), quoted_of_head_ne hu (by decide), h']
  · cases h

/-- A line comment ends where it did if what follows starts alike, a block comment in any case. -/
theorem munch_comment_congr {u r r' : Text} (h : munch (u ++ r) = some (⟨.comment, u⟩, r))
    (hr : ['-', '-'].isPrefixOf u = true → r'.head? = r.head?) :
    munch (u ++ r') = some (⟨.comment, u⟩, r') := by
  rw [munch_comment_iff] at h ⊢
  simp only [comment, oneOf, List.findSome?_cons, List.findSome?_nil] at h ⊢
  split at h
  · rename_i e
    obtain rfl := Option.some.inj h
    obtain ⟨s, h₁, h₂⟩ := Option.bind_eq_some_iff.1 e
    have e₁ := Text.afterPrefix?_eq_some_iff.1 h₁
    have hs := List.takeWhile_append_dropWhile (p := (· ≠ '\n')) (l := s)
    have hst := Text.stops_dropWhile (· ≠ '\n') s
    rw [many, Option.some.injEq] at h₂
    rw [h₂] at hs hst
    obtain ⟨x, hx, rfl⟩ : ∃ x : Text, (∀ c ∈ x, decide (c ≠ '\n') = true) ∧ s = x ++ _ :=
      ⟨_, fun c ↦ Text.mem_takeWhile, hs.symm⟩
    rename_i r
    obtain rfl : u = '-' :: '-' :: x := (List.append_left_inj r).1 (e₁.trans rfl)
    have h₁' : exactly "--" ('-' :: '-' :: x ++ r') = some (x ++ r') := rfl
    rw [lineComment, seq, h₁', Option.bind_some, many,
      Text.dropWhile_append_stops hx (stops_congr (hr rfl) hst)]
  split at h
  · rename_i e
    obtain rfl := Option.some.inj h
    obtain ⟨s, h₁, h₂⟩ := Option.bind_eq_some_iff.1 e
    have e₁ := Text.afterPrefix?_eq_some_iff.1 h₁
    obtain ⟨x, rfl⟩ := splits_commentEnd.suffix h₂
    obtain rfl : u = '/' :: '*' :: x := List.append_cancel_right (e₁.trans rfl)
    have h₁' : lineComment ('/' :: '*' :: x ++ r') = none := rfl
    have h₂' : blockComment ('/' :: '*' :: x ++ r') = some r' := commentEnd_congr h₂ r'
    rw [h₁', h₂']
  · cases h

theorem munch_punctuation_congr {u r r' : Text} (h : munch (u ++ r) = some (⟨.punctuation, u⟩, r))
    (hr : r'.head? = r.head? ∨ Parted r') : munch (u ++ r') = some (⟨.punctuation, u⟩, r') := by
  rw [munch_punctuation_iff] at h ⊢
  obtain ⟨hp, ho⟩ := h
  obtain ⟨c, hc, rfl⟩ := one_append_iff.1 hp
  refine ⟨by simp [punctuation, one, hc], ?_⟩
  simp only [Bool.or_eq_true, decide_eq_true_eq, or_assoc] at hc
  by_cases hcol : c = ':'
  · subst hcol
    have htake : ∀ x : Text, ([':'] ++ x).take 2 = ':' :: x.head?.toList :=
      fun x ↦ by cases x <;> simp
    have hdel : ∀ w ∈ pairs, w.length = 2 ∧ ∀ d ∈ w[1]?, isDelimiter d = false ∧ startsWord d = false := by
      decide
    have hs : ∀ x : Text, ([':'] ++ x).take 1 ∉ singles := fun x ↦ by simp [singles]
    rw [operator_eq, if_neg, if_neg (hs _)]
    intro hm
    rcases hr with hr | hr
    · rw [htake, hr, ← htake] at hm
      rw [operator_eq, if_pos hm] at ho
      cases ho
    · cases r' with
      | nil => cases (hdel _ hm).1
      | cons d x =>
        obtain ⟨h₁, h₂⟩ := (hdel _ hm).2 d rfl
        simpa [h₁, h₂] using hr d rfl
  · refine eq_none_of_starts (k := .operator) (by simp [classes]) ?_ _
    rcases hc with rfl | rfl | rfl | rfl | rfl | rfl <;> first | rfl | exact absurd rfl hcol

/-- A token other than a word or a number is read alike before two texts that start with the same
character, and before one that starts with a delimiter. -/
theorem munch_symbol_congr {t : Token} {r r' : Text} (h : munch (t.text ++ r) = some (t, r))
    (hf : family t.kind ≠ .identifier) (hn : t.kind ≠ .number)
    (hr : r'.head? = r.head? ∨ Delimited r' ∧ t.kind ≠ .blank ∧ t.kind ≠ .comment)
    (hc : t.text = ['/'] → ∀ x, r' = '*' :: x → commentEnd x = none) :
    munch (t.text ++ r') = some (t, r') := by
  obtain ⟨k, u⟩ := t
  have hd : r'.head? = r.head? ∨ Delimited r' := hr.imp id And.left
  cases k with
  | clause | join | joinConstraint | conjunction | membership | identifier => exact absurd rfl hf
  | number => exact absurd rfl hn
  | blank =>
    have hr : r'.head? = r.head? := hr.elim id fun h ↦ absurd rfl h.2.1
    obtain ⟨h₁, h₂, h₃⟩ := munch_blank_iff.1 h
    exact munch_blank_iff.2 ⟨h₁, h₂, stops_congr hr h₃⟩
  | comment => exact munch_comment_congr h fun _ ↦ hr.elim id fun h ↦ absurd rfl h.2.2
  | aggregation =>
    refine munch_aggregation_congr h (stops_of_head_or_delimited ?_ hd ?_)
    · intro c hc
      rcases isDelimiter_iff.1 hc with
        (rfl | rfl | rfl | rfl) | rfl | rfl | rfl | rfl | rfl | rfl | rfl <;>
        rfl
    · obtain ⟨s, -, h₂⟩ := Option.bind_eq_some_iff.1 (munch_aggregation_iff.1 h)
      obtain ⟨s', -, h₄⟩ := Option.bind_eq_some_iff.1 h₂
      obtain ⟨rfl, hs⟩ := boundary_eq_some_iff.1 h₄
      exact hs
  | placeholder => exact munch_placeholder_congr h (.inr hd)
  | string => exact munch_string_congr h (hd.imp_right fun hd ↦ hd.parted.unquoted)
  | operator => exact munch_operator_congr h (hd.imp_right Delimited.parted) hc
  | opening => exact munch_opening_iff.2 (munch_opening_iff.1 h)
  | closing => exact munch_closing_iff.2 (munch_closing_iff.1 h)
  | punctuation => exact munch_punctuation_congr h (hd.imp_right Delimited.parted)

end Grammar
end QueryTemplate
