import QueryTemplate.Proofs.Token.Keyword
namespace QueryTemplate

open Token Grammar

/-- One space between two tokens. -/
def Token.space : Token := ⟨.blank, [' ']⟩

theorem Lexed.stops_blank {ts : List Token} (h : Lexed ts)
    (hb : ∀ t ∈ ts.head?, t.isBlank = false) :
    Text.Stops Text.isBlank (textOf ts) := by
  cases ts with
  | nil => exact Text.stops_nil _
  | cons t ts =>
    have hn := hb t rfl
    rw [Bool.eq_false_iff, Ne, h.isBlank_iff_head] at hn
    intro c hc
    rw [textOf_cons, h.head_append, Option.mem_def] at hc
    simpa [hc] using hn

theorem Lexed.blank_cons {ts : List Token} (h : Lexed ts) (hb : ∀ t ∈ ts.head?, t.isBlank = false)
    {g : Text} (hne : g ≠ []) (hg : ∀ c ∈ g, Text.isBlank c = true) : Lexed (⟨.blank, g⟩ :: ts) :=
  lexed_cons.2 ⟨munch_blank_iff.2 ⟨hne, hg, h.stops_blank hb⟩, h⟩

theorem Lexed.space_cons {ts : List Token} (h : Lexed ts) (hb : ∀ t ∈ ts.head?, t.isBlank = false) :
    Lexed (space :: ts) := h.blank_cons hb (by decide) (by decide)

/-- Tokens of a text after which a space was put. -/
def withSpace : List Token → List Token
  | [] => [space]
  | [t] => if t.isBlank then [⟨.blank, t.text ++ [' ']⟩] else [t, space]
  | t :: u :: ts => t :: withSpace (u :: ts)

theorem textOf_withSpace (ts : List Token) : textOf (withSpace ts) = textOf ts ++ [' '] := by
  fun_induction withSpace ts with
  | case1 => rfl
  | case2 t h => simp
  | case3 t h => simp [space]
  | case4 t u ts ih => simp [ih]

theorem withSpace_append (a : List Token) {b : List Token} (hb : b ≠ []) :
    withSpace (a ++ b) = a ++ withSpace b := by
  obtain ⟨u, b, rfl⟩ := List.exists_cons_of_ne_nil hb
  induction a with
  | nil => rfl
  | cons t a ih =>
    rw [List.cons_append, List.cons_append, ← ih]
    cases a <;> rfl

theorem head_withSpace {a : List Token} (hne : a ≠ []) (hh : ∀ t ∈ a.head?, t.isBlank = false)
    (b : List Token) : (withSpace a ++ b).head? = a.head? := by
  fun_induction withSpace a with
  | case1 => exact absurd rfl hne
  | case2 t h =>
    rw [hh t rfl] at h
    cases h
  | case3 | case4 => rfl

/-- Tokens with a space put after them, where what follows continues no phrase. -/
theorem Lexed.withSpace_append {a b : List Token} (ha : Lexed a) (hne : a ≠ [])
    (hl : ∀ t ∈ a.getLast?, t.isLineComment = false) (ho : opensComment a = false) (hb : Lexed b)
    (hh : ∀ t ∈ b.head?, t.isBlank = false) (hw : phraseRest (tokenWords b) = []) :
    Lexed (withSpace a ++ b) ∧ SameStart a (withSpace a ++ b) := by
  fun_induction withSpace a with
  | case1 => exact absurd rfl hne
  | case2 t h =>
    obtain ⟨hne, hall, -⟩ := Lexed.isBlank_iff ha |>.1 h
    obtain ⟨c, u, e⟩ := List.exists_cons_of_ne_nil hne
    have hc : Text.isBlank c = true := hall c (by simp [e])
    have hn : isNumeric c = false := by
      rcases Grammar.isBlank_iff.1 hc with rfl | rfl | rfl | rfl <;> rfl
    refine ⟨lexed_cons.2 ⟨munch_blank_iff.2 ⟨by simp, ?_, hb.stops_blank hh⟩, hb⟩, ?_, ?_, ?_⟩
    · intro d hd
      rcases List.mem_append.1 hd with hd | hd
      · exact hall d hd
      · obtain rfl := List.mem_singleton.1 hd
        rfl
    · simp [e]
    · rw [tokenWords_blank h, List.singleton_append, tokenWords_blank rfl, hw]
      rfl
    · simp [e, hn]
  | case3 t h =>
    have hs := sealed_blank (c := ' ') rfl (textOf b)
    have hsp : Lexed (space :: b) := hb.space_cons hh
    refine ⟨?_, sameStart_append (b := space :: b) ha hs (by rwa [tokenWords_blank rfl])⟩
    by_cases hc : t.kind = .comment
    · obtain ⟨k, u⟩ := t
      obtain rfl : k = .comment := hc
      refine lexed_cons.2 ⟨munch_comment_congr (lexed_cons.1 ha).1 fun e ↦ ?_, hsp⟩
      have hc : (⟨.comment, u⟩ : Token).isLineComment = false := hl _ rfl
      simp [Token.isLineComment, e] at hc
    · refine ha.append hsp hs (by rwa [tokenWords_blank rfl]) ?_ ⟨fun _ _ ↦ nofun, hsp.slashFree⟩
      rintro u ⟨⟩
      exact ⟨by simpa [Token.isBlank] using h, hc⟩
  | case4 t u ts ih =>
    simp only [opensComment, Bool.or_eq_false_iff] at ho
    obtain ⟨h₁, h₂⟩ := ih ha.tail (by simp) (by simpa using hl) (by simpa [opensComment] using ho.2)
    refine ⟨ha.exchange h₁ (.of_sameStart ha h₂) ⟨fun ht x hx ↦ ?_, h₁.slashFree⟩,
      h₂.cons ha.text_ne_nil⟩
    have := h₂.head
    have hx : textOf (withSpace (u :: ts) ++ b) = '*' :: x := hx
    rw [hx, List.head?_cons] at this
    rw [ht, ← this] at ho
    simp at ho

theorem Lexed.ne_slash {t : Token} (ht : t.isWord = true) : t.text ≠ ['/'] := by
  intro h
  rw [Token.isWord, h] at ht
  cases ht

/-- Nothing but the end of the word matters after a phrase that goes on with no word. -/
theorem Lexed.fixed_exchange {t : Token} {b b' : List Token} (h : Lexed (t :: b))
    (ht : t.isWord = true) (hf : leadingWords t.text ∈ fixedPhrases) (hb : Lexed b')
    (hs : Text.Stops Text.isNameChar (textOf b')) : Lexed (t :: b') := by
  refine h.exchange hb ⟨fun _ ↦ ⟨hs, .inl hf⟩, fun hn ↦ ?_, fun hn ↦ ?_⟩
    ⟨fun e ↦ absurd e (Lexed.ne_slash ht), hb.slashFree⟩
  · have := h.isWord_iff.1 ht
    rw [hn] at this
    cases this
  · rw [ht] at hn
    cases hn

theorem stops_space (r : Text) : Text.Stops Text.isNameChar (' ' :: r) :=
  stops_name_of_delimited (sealed_blank rfl r).1

/-- No comment ends in a text that is put together from two in which none ends. -/
theorem commentEnd_append {u x : Text} (hu : commentEnd u = none) (hx : commentEnd x = none)
    (hh : x.head? = some '/' → u.getLast? ≠ some '*') : commentEnd (u ++ x) = none := by
  refine commentEnd_append_none (x := []) (fun _ ↦ hx) (fun h ↦ .inr (hh h)) ?_
  rwa [List.append_nil]

theorem commentEnd_of_append {u x : Text} (h : commentEnd (u ++ x) = none) :
    commentEnd x = none := by
  induction u with
  | nil => exact h
  | cons c u ih =>
    refine ih ?_
    rw [List.cons_append, commentEnd.eq_def] at h
    split at h
    · cases h
    · rename_i e
      rwa [(List.cons.inj e).2]
    · rename_i e
      cases e

end QueryTemplate
