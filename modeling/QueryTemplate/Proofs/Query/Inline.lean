import QueryTemplate.Proofs.Query.Layout
import QueryTemplate.Proofs.Token.Alone
import QueryTemplate.Proofs.Filter.Predicate
namespace QueryTemplate

open Token Fragment Grammar Formula

/-- The classes of the tokens of an expression. -/
def exprKinds :
    List Kind := [.conjunction, .identifier, .string, .number, .operator, .opening, .closing,
      .punctuation]

def Token.isOperand (t : Token) : Bool :=
  t.kind = .identifier || t.kind = .string || t.kind = .number

/-- Tokens that can be neighbours in an expression: not two operands, and no number beside a point.
-/
def Beside (t u : Token) : Prop :=
  ((t.isOperand || t.kind = .closing) = true → u.isOperand = false) ∧ Apart t u

instance (t u : Token) : Decidable (Beside t u) := inferInstanceAs (Decidable (_ ∧ _))

/-- All neighbours can be. -/
def Abutting : List Token → Prop
  | t :: u :: l => Beside t u ∧ Abutting (u :: l)
  | _ => True

instance Abutting.decide : (l : List Token) → Decidable (Abutting l)
  | [] | [_] => isTrue trivial
  | _ :: u :: l =>
    have := Abutting.decide (u :: l)
    inferInstanceAs (Decidable (_ ∧ _))

theorem Abutting.tail {t : Token} {l : List Token} (h : Abutting (t :: l)) : Abutting l := by
  cases l with
  | nil => trivial
  | cons u l => exact h.2

/-- The tokens of an expression other than white space. -/
structure Inline (l : List Token) : Prop where
  alone : ∀ t ∈ l, Lexed [t]
  kinds : ∀ t ∈ l, t.kind = .comment ∨ t.kind ∈ exprKinds
  bang : ∀ t ∈ l, t.kind = .operator → t.text ≠ ['!']
  abutting : Abutting l

section

variable {t u : Token} {l ps : List Token}

theorem Inline.tail (h : Inline (t :: l)) : Inline l :=
  ⟨fun v hv ↦ h.alone v (List.mem_cons_of_mem _ hv),
    fun v hv ↦ h.kinds v (List.mem_cons_of_mem _ hv),
    fun v hv ↦ h.bang v (List.mem_cons_of_mem _ hv), h.abutting.tail⟩

theorem Inline.lexical (h : Inline l) (ht : t ∈ l) : Lexical t := ⟨[], h.alone t ht⟩

theorem Inline.kind_ne_blank (h : Inline l) (ht : t ∈ l) : t.kind ≠ .blank := by
  intro hk
  rcases h.kinds t ht with h | h
  · rw [hk] at h
    cases h
  · rw [hk] at h
    exact absurd h (by decide)

theorem not_isWord_of_kind (ht : Lexed [t]) (hk : family t.kind ≠ .identifier) : t.isWord = false :=
  Bool.eq_false_iff.2 fun h ↦ hk (ht.isWord_iff.1 h)

theorem not_isWord_of_comment (ht : Lexed [t]) (hk : t.kind = .comment) : t.isWord = false :=
  not_isWord_of_kind ht (by rw [hk]; decide)

theorem admits_comment (ht : Lexed [t]) (hk : t.kind = .comment)
    (h : t.isLineComment = true → Text.Stops (· ≠ '\n') (textOf ps)) : Admits t ps where
  blank hb := by
    rw [hk] at hb
    cases hb
  comment := h
  word hw := by
    rw [not_isWord_of_comment ht hk] at hw
    cases hw
  number hn := by
    rw [hk] at hn
    cases hn
  symbol _ _ _ hc := absurd hk hc

/-- What an expression admits after its tokens other than comments. -/
theorem admits_code (ht : Lexed [t]) (hk : t.kind ∈ exprKinds)
    (hw : t.isWord = true → Text.Stops Text.isNameChar (textOf ps) ∧
      (t.kind = .identifier → ahead ps = [])) (hn : t.kind = .number →
      Text.Stops isNumeric (textOf ps) ∨
      t.text.getLast? = some '.' ∧ Text.Stops (fun c ↦ c.isDigit || c = 'e' || c = 'E') (textOf ps))
    (hs : t.isWord = false → t.kind ≠ .number → t.kind = .opening ∨
      (t.kind = .operator ∧ t.text = ['.'] ∧ Text.Stops Char.isDigit (textOf ps)) ∨
          Delimited (textOf ps)) :
    Admits t ps where
  blank hb := by
    rw [hb] at hk
    exact absurd hk (by decide)
  comment hc := by
    simp only [isLineComment, Bool.and_eq_true, decide_eq_true_eq] at hc
    rw [hc.1] at hk
    exact absurd hk (by decide)
  word hwt := by
    refine ⟨(hw hwt).1, ?_⟩
    by_cases hc : t.kind = .conjunction
    · exact .inl (ht.conjunction_fixed hc)
    · refine .inr ((hw hwt).2 ?_)
      have hid : ∀ k ∈ exprKinds, k ≠ .conjunction → family k = .identifier → k = .identifier := by
        decide
      exact hid _ hk hc (ht.isWord_iff.1 hwt)
  number := hn
  symbol hwt hnt _ _ := hs hwt hnt

theorem admits_sealed (ht : Lexed [t]) (hk : t.kind ∈ exprKinds) (hs : Sealed (textOf ps))
    (ha : t.kind = .identifier → ahead ps = []) : Admits t ps :=
  admits_code ht hk (fun _ ↦ ⟨stops_name_of_delimited hs.1, ha⟩) (fun _ ↦ .inl hs.stops_numeric)
    fun _ _ ↦ .inr (.inr hs.1)

/-- A token without a space before it starts with a delimiter. -/
theorem delimiter_of_attached (hu : Lexical u)
    (h : u.kind = .closing ∨ u.text = [','] ∨ u.text = [';'] ∨
    u.text.head? = some '.' ∨ u.kind = .opening) :
    ∃ c ∈ u.text.head?, isDelimiter c = true ∧ startsWord c = false ∧
      (c = '.' ∨ isNumeric c = false) := by
  have key : ∀ w : Text, u.text = w →
      (∃ c ∈ w.head?, isDelimiter c = true ∧ startsWord c = false ∧
        (c = '.' ∨ isNumeric c = false)) →
      ∃ c ∈ u.text.head?, isDelimiter c = true ∧ startsWord c = false ∧
        (c = '.' ∨ isNumeric c = false) :=
    fun w hw hc ↦ hw ▸ hc
  rcases h with h | h | h | h | h
  · rcases hu.closing h with hw | hw
    · exact key _ hw (by decide)
    · exact key _ hw (by decide)
  · exact key _ h (by decide)
  · exact key _ h (by decide)
  · exact ⟨'.', h, rfl, rfl, .inl rfl⟩
  · rcases hu.opening h with hw | hw
    · exact key _ hw (by decide)
    · exact key _ hw (by decide)

theorem isPoint_of_head? (hu : Lexical u) (hk : u.kind ∈ exprKinds) (ho : u.isOperand = false)
    (hd : u.text.head? = some '.') : isPoint u = true := by
  have hop : ∀ w ∈ pairs ++ singles, w.head? = some '.' → w = ['.'] := by decide
  have hs := hu.startsKind '.' hd
  have hall : ∀ k ∈ exprKinds, startsKind k '.' = true → k = .operator ∨ k = .number := by decide
  rcases hall _ hk hs with h | h
  · simp [isPoint, h, hop _ (hu.operator h) hd]
  · simp [Token.isOperand, h] at ho

theorem head_conjunction (hu : Lexical u) (hk : u.kind = .conjunction) :
    ∀ c ∈ u.text.head?, c.toLower = 'a' ∨ c.toLower = 'o' := by
  intro c hc
  obtain ⟨ts, hl⟩ := hu
  obtain ⟨s, hs⟩ := List.head?_eq_some_iff.1 hc
  obtain ⟨us, e⟩ := leadingWords_eq_cons u.text
  have hw := hl.conjunction_words hk
  rw [e, hs, List.takeWhile_cons] at hw
  split at hw
  · simp only [Text.lower, List.map_cons, List.mem_cons, List.cons.injEq, List.not_mem_nil,
      or_false] at hw
    exact hw.imp (fun h ↦ (List.cons.inj h.1).1) fun h ↦ (List.cons.inj h.1).1
  · simp [Text.lower] at hw

/-- A token goes on with no character of a number that ends in a point, unless it is an operand. -/
theorem stops_of_not_isOperand (hu : Lexical u) (hk : u.kind ∈ exprKinds) (ho : u.isOperand = false)
    (r : Text) :
    Text.Stops (fun c ↦ c.isDigit || c = 'e' || c = 'E') (u.text ++ r) := by
  have hop : ∀ w ∈ operators, ∀ c ∈ w.head?, (c.isDigit || c = 'e' || c = 'E' : Bool) = false := by
    decide
  intro c hc
  rw [List.head?_append, List.head?_eq_some_head hu.text_ne_nil, Option.some_or] at hc
  have hs := hu.startsKind c (by rwa [List.head?_eq_some_head hu.text_ne_nil])
  simp only [Token.isOperand, Bool.or_eq_false_iff, decide_eq_false_iff_not] at ho
  simp only [exprKinds, List.mem_cons, List.not_mem_nil, or_false] at hk
  rcases hk with hk | hk | hk | hk | hk | hk | hk | hk
  · have hd : c.isDigit = false := Bool.eq_false_iff.2 fun e ↦ ho.2 (number_of_isDigit hs e)
    have hh := head_conjunction hu hk c (by rwa [List.head?_eq_some_head hu.text_ne_nil])
    have hn : ∀ d ∈ ['e', 'E'], ¬ (d.toLower = 'a' ∨ d.toLower = 'o') := by decide
    have he : ∀ d ∈ ['e', 'E'], c ≠ d := fun d hd e ↦ hn d hd (e ▸ hh)
    simp [hd, he]
  · exact absurd hk ho.1.1
  · exact absurd hk ho.1.2
  · exact absurd hk ho.2
  · rw [hk] at hs
    obtain ⟨w, hw, e⟩ := List.any_eq_true.1 hs
    exact hop w hw c (by simpa using e)
  all_goals
    rw [hk] at hs
    simp only [startsKind, Bool.or_eq_true, decide_eq_true_eq, or_assoc] at hs
    rcases hs with rfl | rfl | rfl | rfl | rfl | rfl <;> rfl

/-- A token is read apart from its neighbour without a space between them. -/
theorem admits_beside (ht : Lexed [t]) (hk : t.kind ∈ exprKinds)
    (hbang : t.kind = .operator → t.text ≠ ['!']) (hu : Lexical u) (huk : u.kind ∈ exprKinds)
    (h : Beside t u) (hn : needsSpace t.text u = false) (ps : List Token) : Admits t (u :: ps) := by
  obtain ⟨hop, ha⟩ := h
  have hnt : t.kind ≠ .blank ∧ t.kind ≠ .comment := by
    have : ∀ k ∈ exprKinds, k ≠ .blank ∧ k ≠ .comment := by decide
    exact this _ hk
  have hl : Lexical t := ⟨[], ht⟩
  have hsol := hl.solid hnt.1 hnt.2
  have hhead : (u.text ++ textOf ps).head? = u.text.head? := by
    rw [List.head?_append, List.head?_eq_some_head hu.text_ne_nil, Option.some_or]
  rcases needsSpace_cases hn with hs | ⟨c, hc, hcs⟩ | hat
  · exact absurd hs hl.text_ne_nil
  · have hopen : t.kind = .opening → Admits t (u :: ps) := fun e ↦
      admits_code ht hk (fun hw ↦ by rw [not_isWord_of_kind ht (by rw [e]; decide)] at hw; cases hw)
        (fun hn ↦ by rw [e] at hn; cases hn) fun _ _ ↦ .inl e
    rcases hcs with hcs | hcs | hcs | rfl | rfl
    · rw [hsol.last c hc] at hcs
      cases hcs
    · exact hopen (kind_of_getLast?_opening hl hnt.2 hnt.1 (.inl hcs) hc)
    · exact hopen (kind_of_getLast?_opening hl hnt.2 hnt.1 (.inr hcs) hc)
    · rcases point_or_number_of_getLast? hl hnt.2 hnt.1 hc with hp | hnum
      · have hp' := hp
        simp only [isPoint, Bool.and_eq_true, decide_eq_true_eq] at hp'
        refine admits_code ht hk (fun hw ↦ ?_) (fun hnum ↦ ?_) fun _ _ ↦
          .inr (.inl ⟨hp'.1, hp'.2, fun d hd ↦ ?_⟩)
        · rw [not_isWord_of_kind ht (by rw [hp'.1]; decide)] at hw
          cases hw
        · rw [hp'.1] at hnum
          cases hnum
        · rw [textOf_cons, hhead] at hd
          refine Bool.eq_false_iff.2 fun hdig ↦ ?_
          rw [ha.2 (number_of_isDigit (hu.startsKind d hd) hdig)] at hp
          cases hp
      · refine admits_code ht hk (fun hw ↦ ?_) (fun _ ↦ .inr ⟨hc, ?_⟩) fun _ hn ↦ absurd hnum hn
        · rw [not_isWord_of_kind ht (by rw [hnum]; decide)] at hw
          cases hw
        · exact stops_of_not_isOperand hu huk (hop (by simp [Token.isOperand, hnum])) _
    · exact absurd hc (getLast?_ne_bang hl hnt.2 hnt.1 hbang)
  · obtain ⟨c, hc, hd, hw, hnum⟩ := delimiter_of_attached hu hat
    have hdel : Delimited (textOf (u :: ps)) := by
      intro d hd'
      rw [textOf_cons, hhead, hc] at hd'
      exact Option.some.inj hd' ▸ hd
    have hwu : u.isWord = false := by
      rw [Token.isWord, hc]
      exact hw
    have hbu : u.isBlank = false := by
      have : ∀ k ∈ exprKinds, k ≠ .blank := by decide
      simp [Token.isBlank, this _ huk]
    refine admits_code ht hk (fun _ ↦
      ⟨stops_name_of_delimited hdel, fun _ ↦ ahead_symbol hbu hwu ps⟩)
      (fun htn ↦ .inl fun d hd' ↦ ?_) fun _ _ ↦ .inr (.inr hdel)
    rw [textOf_cons, hhead, hc] at hd'
    obtain rfl := Option.some.inj hd'
    refine hnum.resolve_left fun e ↦ ?_
    have hp := isPoint_of_head? hu huk (hop (by simp [Token.isOperand, htn])) (e ▸ hc)
    rw [ha.1 htn] at hp
    cases hp

end

/-- A line break between two tokens. -/
def Token.lineBreak : Token := ⟨.blank, ['\n']⟩

/-- A token without white space at its end, which only a line comment can have. -/
def Token.trimmed (t : Token) : Token := ⟨t.kind, Text.trimEnd t.text⟩

/-- What stands between a token and the one before it; a comment has ended its line already. -/
def gapAfter : Option Token → Token → List Token
  | none, _ => []
  | some q, t =>
    if q.kind = .comment then [] else if t.kind = .comment ∨ needsSpace q.text t = true then [space]
      else []

def lineEnd (t : Token) : List Token := if t.kind = .comment then [lineBreak] else []

/-- The tokens of the expression that is put together from `l`, after the token `p`. -/
def spaced (p : Option Token) : List Token → List Token
  | [] => []
  | t :: l => gapAfter p t ++ t :: (lineEnd t ++ spaced (some t) l)

/-- The tokens of the expression without white space at its end. -/
def bare (p : Option Token) : List Token → List Token
  | [] => []
  | [t] => gapAfter p t ++ [t.trimmed]
  | t :: u :: l => gapAfter p t ++ t :: (lineEnd t ++ bare (some t) (u :: l))

section

variable {p : Option Token} {t : Token} {l ps : List Token}

theorem gapAfter_eq (p : Option Token) (t : Token) :
    gapAfter p t = [] ∨ gapAfter p t = [space] := by
  cases p with
  | none => exact .inl rfl
  | some q =>
    rw [gapAfter]
    split
    · exact .inl rfl
    · split
      · exact .inr rfl
      · exact .inl rfl

theorem trimEnd_cons {c : Char} (h : Text.isSpace c = false) (s : Text) :
    Text.trimEnd (c :: s) = c :: Text.trimEnd s := by
  rw [Text.trimEnd, List.reverse_cons, List.dropWhile_append, Text.trimEnd]
  split
  · rename_i e
    rw [List.isEmpty_iff.1 e, List.dropWhile_cons_of_neg (by simp [h])]
    rfl
  · rw [List.reverse_append]
    rfl

/-- A comment runs to the end of its line or to its end mark. -/
theorem comment_cases (ht : Lexed [t]) (hk : t.kind = .comment) :
    (∃ x : Text, t.text = '-' :: '-' :: x ∧ ∀ c ∈ x, c ≠ '\n') ∨
      ∃ x : Text, t.text = '/' :: '*' :: (x ++ ['*', '/']) := by
  obtain ⟨k, u⟩ := t
  obtain rfl : k = .comment := hk
  have hm := lexed_singleton.1 ht
  by_cases hl : ['-', '-'].isPrefixOf u = true
  · obtain ⟨x, rfl⟩ := List.isPrefixOf_iff_prefix.1 hl
    have hx := ((munch_lineComment_iff hl).1 hm).1
    exact .inl ⟨x, rfl, fun c hc ↦ hx c (List.mem_append_right _ hc)⟩
  · right
    rw [munch_comment_iff, List.append_nil] at hm
    obtain ⟨a, ha, e⟩ := List.exists_of_findSome?_eq_some hm
    simp only [List.mem_cons, List.not_mem_nil, or_false] at ha
    rcases ha with rfl | rfl
    · obtain ⟨s, h₁, -⟩ := Option.bind_eq_some_iff.1 e
      have hu : u = "--".toList ++ s := Text.afterPrefix?_eq_some_iff.1 h₁
      rw [hu] at hl
      exact absurd rfl hl
    · obtain ⟨s, h₁, h₂⟩ := Option.bind_eq_some_iff.1 e
      have hu : u = "/*".toList ++ s := Text.afterPrefix?_eq_some_iff.1 h₁
      obtain ⟨y, rfl⟩ := commentEnd_eq_some h₂
      exact ⟨y, by rw [hu, List.append_nil]; rfl⟩

theorem lexed_lineComment {x : Text} (h : ∀ c ∈ x, c ≠ '\n') :
    Lexed [⟨.comment, '-' :: '-' :: x⟩] := by
  rw [lexed_singleton, munch_lineComment_iff rfl]
  refine ⟨fun c hc ↦ ?_, nofun⟩
  rcases List.mem_cons.1 hc with rfl | hc
  · decide
  · rcases List.mem_cons.1 hc with rfl | hc
    · decide
    · exact h c hc

theorem mem_of_mem_trimEnd {s : Text} {c : Char} (h : c ∈ Text.trimEnd s) : c ∈ s := by
  rw [← Text.trimEnd_append_spaceEnd s]
  exact List.mem_append_left _ h

theorem trimmed_of_code (ht : Lexed [t]) (hb : t.kind ≠ .blank) (hc : t.kind ≠ .comment) :
    t.trimmed = t := by
  have hs := Lexical.solid ⟨[], ht⟩ hb hc
  rw [Token.trimmed, hs.trimEnd]

theorem trimmed_of_block {x : Text} (h : t.text = '/' :: '*' :: (x ++ ['*', '/'])) :
    t.trimmed = t := by
  have hs : Solid t.text := by
    refine ⟨fun c hc ↦ ?_, fun c hc ↦ ?_⟩
    · rw [h] at hc
      obtain rfl := Option.some.inj hc
      rfl
    · have e : t.text = ('/' :: '*' :: x) ++ ['*', '/'] := h
      rw [e, List.getLast?_append] at hc
      obtain rfl := Option.some.inj hc
      rfl
  rw [Token.trimmed, hs.trimEnd]

theorem trimmed_of_line {x : Text} (h : t.text = '-' :: '-' :: x) :
    t.trimmed.text = '-' :: '-' :: Text.trimEnd x := by
  rw [Token.trimmed, h, trimEnd_cons rfl, trimEnd_cons rfl]

theorem lexed_trimmed_singleton (ht : Lexed [t]) (hb : t.kind ≠ .blank) : Lexed [t.trimmed] := by
  by_cases hc : t.kind = .comment
  · rcases comment_cases ht hc with ⟨x, hx, hn⟩ | ⟨x, hx⟩
    · have : t.trimmed = ⟨.comment, '-' :: '-' :: Text.trimEnd x⟩ := by
        rw [← trimmed_of_line hx, ← hc]
        rfl
      rw [this]
      exact lexed_lineComment fun c hm ↦ hn c (mem_of_mem_trimEnd hm)
    · rwa [trimmed_of_block hx]
  · rwa [trimmed_of_code ht hb hc]

theorem Inline.lexed_trimmed (h : Inline l) (ht : t ∈ l) : Lexed [t.trimmed] :=
  lexed_trimmed_singleton (h.alone t ht) (h.kind_ne_blank ht)

theorem isLineComment_trimmed (ht : Lexed [t]) : t.trimmed.isLineComment = t.isLineComment := by
  by_cases hc : t.kind = .comment
  · rcases comment_cases ht hc with ⟨x, hx, -⟩ | ⟨x, hx⟩
    · have hk : t.trimmed.kind = t.kind := rfl
      rw [isLineComment, isLineComment, trimmed_of_line hx, hx, hk]
      rfl
    · rw [trimmed_of_block hx]
  · simp [isLineComment, Token.trimmed, hc]

theorem bare_cons (p : Option Token) (t : Token) (l : List Token) :
    ∃ u r, bare p (t :: l) = gapAfter p t ++ u :: r ∧
    (u = t ∨ u = t.trimmed) := by
  cases l with
  | nil => exact ⟨_, _, rfl, .inr rfl⟩
  | cons u l => exact ⟨_, _, rfl, .inl rfl⟩

theorem Inline.isBlank_eq_false (h : Inline l) (ht : t ∈ l) : t.isBlank = false := by
  simp [Token.isBlank, h.kind_ne_blank ht]

theorem Lexed.gap_append (h : Lexed ps) (hb : ∀ u ∈ ps.head?, u.isBlank = false) (p : Option Token)
    (t : Token) :
    Lexed (gapAfter p t ++ ps) := by
  rcases gapAfter_eq p t with e | e
  · rwa [e]
  · rw [e]
    exact h.space_cons hb

/-- What can stand after an expression: it takes nothing of the last token. -/
structure Follows (l ps : List Token) : Prop where
  lexed : Lexed ps
  sealed : Sealed (textOf ps)
  ahead : ∀ t ∈ l.getLast?, t.kind = .identifier → ahead ps = []
  line : ∀ t ∈ l.getLast?, t.isLineComment = true → Text.Stops (· ≠ '\n') (textOf ps)

theorem Follows.tail {u : Token} (h : Follows (t :: u :: l) ps) : Follows (u :: l) ps :=
  ⟨h.lexed, h.sealed, by simpa using h.ahead, by simpa using h.line⟩

/-- No phrase goes on with a token that is no operand. -/
theorem Inline.ahead_cons (h : Inline l) {u : Token} (hu : u ∈ l) (ho : u.isOperand = false)
    {v : Token} (hv : Lexed [v]) (hvk : v.kind = u.kind) (r : List Token) :
    ahead (v :: r) = [] := by
  by_cases hc : u.kind = .conjunction
  · exact hv.ahead_conjunction (hvk.trans hc)
  · have hf : ∀ k ∈ Kind.comment :: exprKinds, k ≠ .conjunction → k ≠ .identifier →
        family k ≠ .identifier := by decide
    have hid : u.kind ≠ .identifier := by
      intro e
      simp [Token.isOperand, e] at ho
    have hb : v.isBlank = false := by
      rw [Token.isBlank, hvk]
      exact h.isBlank_eq_false hu
    exact ahead_symbol hb (not_isWord_of_kind hv
      (hvk ▸ hf _ (List.mem_cons.2 (h.kinds u hu)) hc hid)) r

/-- A token is read apart from its neighbour after what stands between them. -/
theorem Inline.admits {u v : Token} (h : Inline (t :: u :: l)) (hc : t.kind ≠ .comment)
    (hv : v = u ∨ v = u.trimmed) (r : List Token) : Admits t (gapAfter (some t) u ++ v :: r) := by
  have hu : u ∈ u :: l := List.mem_cons_self
  have ht := h.alone t List.mem_cons_self
  have hkt := (h.kinds t List.mem_cons_self).resolve_left hc
  have hbes := h.abutting.1
  rw [gapAfter, if_neg hc]
  split
  · refine admits_sealed ht hkt (sealed_blank rfl _) fun hid ↦ ?_
    have hvl : Lexed [v] := by
      rcases hv with rfl | rfl
      · exact h.tail.alone _ hu
      · exact h.tail.lexed_trimmed hu
    have hvk : v.kind = u.kind := by rcases hv with rfl | rfl <;> rfl
    rw [List.singleton_append, ahead_blank rfl]
    exact h.tail.ahead_cons hu (hbes.1 (by simp [Token.isOperand, hid])) hvl hvk r
  · rename_i hn
    obtain ⟨huc, hn⟩ := not_or.1 hn
    have huk := (h.tail.kinds u hu).resolve_left huc
    have hvu : v = u := by
      rcases hv with rfl | rfl
      · rfl
      · exact trimmed_of_code (h.tail.alone u hu) (h.tail.kind_ne_blank hu) huc
    rw [hvu]
    exact admits_beside ht hkt (h.bang t List.mem_cons_self) (h.tail.lexical hu) huk hbes
      (Bool.eq_false_iff.2 hn) r

/-- An expression is read again as the tokens that it is put together from. -/
theorem Inline.lexed_bare (h : Inline l) (hp : Follows l ps) : Lexed (bare p l ++ ps) := by
  induction l generalizing p with
  | nil => exact hp.lexed
  | cons t l ih =>
    have ht := h.alone t List.mem_cons_self
    have hb := h.isBlank_eq_false List.mem_cons_self
    cases l with
    | nil =>
      have hl := h.lexed_trimmed List.mem_cons_self
      rw [bare, List.append_assoc]
      refine Lexed.gap_append (hl.before hp.lexed ?_) (fun u hu ↦ Option.some.inj hu ▸ hb) p t
      by_cases hc : t.kind = .comment
      · refine admits_comment hl hc fun e ↦ hp.line t rfl ?_
        rwa [isLineComment_trimmed ht] at e
      · exact admits_sealed hl ((h.kinds t List.mem_cons_self).resolve_left hc) hp.sealed
          (hp.ahead t rfl)
    | cons u l =>
      have ih := ih (p := some t) h.tail hp.tail
      obtain ⟨v, r, hbare, hv⟩ := bare_cons (some t) u l
      rw [bare, List.append_assoc, List.cons_append, List.append_assoc]
      refine Lexed.gap_append (ht.before ?_ ?_) (fun w hw ↦ Option.some.inj hw ▸ hb) p t
      · rw [lineEnd]
        split
        · refine ih.blank_cons (fun w hw ↦ ?_) (by decide) (by decide)
          rw [hbare, gapAfter, if_pos ‹_›] at hw
          obtain rfl := Option.some.inj hw
          have hu := h.tail.isBlank_eq_false List.mem_cons_self
          rcases hv with rfl | rfl <;> exact hu
        · exact ih
      · by_cases hc : t.kind = .comment
        · rw [lineEnd, if_pos hc]
          exact admits_comment ht hc fun _ ↦ by simp [lineBreak]
        · rw [lineEnd, if_neg hc, List.nil_append, hbare, List.append_assoc]
          exact h.admits hc hv _

theorem codeOf_cons (t : Token) (ts : List Token) : codeOf (t :: ts) = codeOf [t] ++ codeOf ts :=
  codeOf_append [t] ts

theorem codeOf_blanks {ts : List Token} (h : ∀ t ∈ ts, t.kind = .blank) : codeOf ts = [] :=
  List.filter_eq_nil_iff.2 fun t ht ↦ by simp [h t ht]

theorem codeOf_gap (p : Option Token) (t : Token) : codeOf (gapAfter p t) = [] := by
  rcases gapAfter_eq p t with e | e <;> rw [e] <;> rfl

theorem codeOf_lineEnd (t : Token) : codeOf (lineEnd t) = [] := by
  rw [lineEnd]
  split <;> rfl

theorem codeOf_trimmed (ht : Lexed [t]) (hb : t.kind ≠ .blank) :
    codeOf [t.trimmed] = codeOf [t] := by
  by_cases hc : t.kind = .comment
  · have hk : t.trimmed.kind = .comment := hc
    simp [codeOf, hc, hk]
  · rw [trimmed_of_code ht hb hc]

/-- How an expression is spaced changes none of its tokens but comments. -/
theorem Inline.codeOf_bare (h : Inline l) (p : Option Token) : codeOf (bare p l) = codeOf l := by
  induction l generalizing p with
  | nil => rfl
  | cons t l ih =>
    have ht := h.alone t List.mem_cons_self
    have hb := h.kind_ne_blank List.mem_cons_self
    cases l with
    | nil => rw [bare, codeOf_append, codeOf_gap, codeOf_trimmed ht hb, List.nil_append]
    | cons u l =>
      rw [bare, codeOf_append, codeOf_gap, List.nil_append, codeOf_cons, codeOf_append,
        codeOf_lineEnd, List.nil_append, ih h.tail, ← codeOf_cons]

theorem exists_ink (ht : Lexed [t]) (hb : t.kind ≠ .blank) : ∃ c ∈ t.text, Text.isSpace c = false :=
  ink_of_lexical ⟨[], ht⟩ hb

/-- What is put together from some tokens, but for white space at its end. -/
theorem Inline.trimEnd_spaced (h : Inline l) (hne : l ≠ []) (p : Option Token) :
    Text.trimEnd (textOf (spaced p l)) = textOf (bare p l) := by
  induction l generalizing p with
  | nil => exact absurd rfl hne
  | cons t l ih =>
    have ht := h.alone t List.mem_cons_self
    have hb := h.kind_ne_blank List.mem_cons_self
    cases l with
    | nil =>
      have hink := exists_ink ht hb
      have hend : Text.trimEnd (t.text ++ textOf (lineEnd t)) = Text.trimEnd t.text := by
        rw [lineEnd]
        split
        · exact trimEnd_append_spaces (by decide) _
        · rw [textOf_nil, List.append_nil]
      obtain ⟨c, hm, hc⟩ := hink
      rw [spaced, bare, spaced, List.append_nil, textOf_append, textOf_cons,
        trimEnd_append ⟨c, List.mem_append_left _ hm, hc⟩, hend, textOf_append]
      simp [Token.trimmed]
    | cons u l =>
      obtain ⟨c, hm, hc⟩ := exists_ink (h.tail.alone u List.mem_cons_self)
        (h.tail.kind_ne_blank List.mem_cons_self)
      have hin : ∃ c ∈ textOf (spaced (some t) (u :: l)), Text.isSpace c = false :=
        ⟨c, by simp [spaced, hm], hc⟩
      rw [spaced, bare, textOf_append, textOf_append, textOf_cons, textOf_cons, textOf_append,
        textOf_append, ← ih h.tail (by simp), ← List.append_assoc, ← List.append_assoc,
        trimEnd_append hin]
      simp

end

end QueryTemplate
