import QueryTemplate.Proofs.Filter.Statement
import QueryTemplate.Proofs.Query.CellText
import QueryTemplate.Proofs.Query.Layout
import QueryTemplate.Proofs.Token.Alone
import Mathlib.Data.List.DropRight
namespace QueryTemplate

open Token Grammar Fragment

variable {p t : Token} {a b b' gs ts : List Token}

/-- Exchanging the end of some tokens for one behind a blank opens no comment if none ends in the
new end. -/
theorem SlashFree.exchange (h : SlashFree (a ++ b)) (hb : SlashFree b')
    (hh : ∀ c ∈ (textOf b').head?, c ≠ '*' ∧ c ≠ '/')
    (hc : commentEnd (textOf b) = none → commentEnd (textOf b') = none) : SlashFree (a ++ b') := by
  induction a with
  | nil => exact hb
  | cons t a ih =>
    refine ⟨fun ht x hx ↦ ?_, ih h.2⟩
    have hx : textOf (a ++ b') = '*' :: x := hx
    rw [textOf_append] at hx
    obtain ⟨u, hu, rfl⟩ : ∃ u, textOf a = '*' :: u ∧ x = u ++ textOf b' := by
      cases ha : textOf a with
      | nil =>
        rw [ha, List.nil_append] at hx
        exact absurd rfl (hh '*' (by rw [hx]; rfl)).1
      | cons c u =>
        rw [ha] at hx
        obtain ⟨rfl, rfl⟩ := List.cons.inj hx
        exact ⟨u, rfl, rfl⟩
    have hn : commentEnd (u ++ textOf b) = none := h.1 ht _ (by
      show textOf (a ++ b) = _
      rw [textOf_append, hu]
      rfl)
    exact commentEnd_append (commentEnd_left hn) (hc (commentEnd_of_append hn)) fun e ↦
      absurd rfl (hh '/' e).2

/-- White space keeps what follows it apart from what is before it. -/
theorem Lexed.sealed (h : Lexed (gs ++ b)) (hg : ∀ t ∈ gs, t.isBlank = true)
    (hs : gs ≠ [] ∨ Sealed (textOf b)) :
    Sealed (textOf (gs ++ b)) := by
  cases gs with
  | nil => exact hs.resolve_left fun e ↦ e rfl
  | cons g gs =>
    obtain ⟨hne, hall, -⟩ := h.isBlank_iff.1 (hg g List.mem_cons_self)
    obtain ⟨c, u, e⟩ := List.exists_cons_of_ne_nil hne
    rw [List.cons_append, textOf_cons, e]
    exact sealed_blank (hall c (by simp [e])) _

/-- Tokens before blanks at the end are read without the blanks. -/
theorem Lexed.dropBlanks (h : Lexed (a ++ gs)) (hg : ∀ t ∈ gs, t.isBlank = true)
    (hl : ∀ t ∈ a.getLast?, t.kind ≠ .blank ∧ t.kind ≠ .comment) : Lexed a := by
  have hw : phraseRest (tokenWords gs) = [] := by
    have := ahead_blanks hg []
    rwa [List.append_nil] at this
  have hs : Sealed (textOf gs) := by
    have hgs : Lexed (gs ++ []) := by simpa using h.suffix
    have := hgs.sealed hg (.inr sealed_nil)
    rwa [List.append_nil] at this
  induction a with
  | nil => exact lexed_nil
  | cons t a ih =>
    cases a with
    | nil =>
      obtain ⟨h₁, h₂⟩ := hl t rfl
      exact h.exchange lexed_nil ⟨fun _ ↦ ⟨Text.stops_nil _, .inr hw⟩,
        fun _ ↦ .inr (Text.stops_nil _),
        fun _ _ ↦ .inr (.inr (.inr ⟨sealed_nil.1, h₁, h₂⟩))⟩ (slashFree_singleton t)
    | cons u a =>
      have hu := ih h.tail (by simpa using hl)
      have hsame := sameStart_append hu hs hw
      refine h.exchange hu (.of_sameStart h ⟨hsame.head.symm, hsame.words.symm, hsame.numeric.symm⟩)
        ⟨fun ht x hx ↦ ?_, hu.slashFree⟩
      have hx : textOf (u :: a) = '*' :: x := hx
      exact commentEnd_left (h.slashFree.1 ht (x ++ textOf gs) (by
        show textOf (u :: a ++ gs) = _
        rw [textOf_append, hx]
        rfl))

/-- The token of a filter: a placeholder in which no comment ends. -/
structure IsFilter (p : Token) : Prop where
  kind : p.kind = .placeholder
  lexed : Lexed [p]
  closed : commentEnd p.text = none

theorem isFilter_timeFilter : IsFilter ⟨.placeholder, "$timeFilter"⟩ := ⟨rfl, by decide, by decide⟩

theorem isFilter_timeFilterMs : IsFilter ⟨.placeholder, "$timeFilterMs"⟩ :=
  ⟨rfl, by decide, by decide⟩

namespace IsFilter

theorem lexical (hp : IsFilter p) : Lexical p := ⟨[], hp.lexed⟩

theorem isBlank (hp : IsFilter p) : p.isBlank = false := by simp [Token.isBlank, hp.kind]

theorem isWord (hp : IsFilter p) : p.isWord = false := by
  rw [Bool.eq_false_iff, Ne, hp.lexed.isWord_iff, hp.kind]
  decide

theorem isPredicate (hp : IsFilter p) : IsPredicate [p] where
  lexed := hp.lexed
  ne_nil := by simp
  head t ht := Option.some.inj ht ▸ hp.isBlank
  last t ht := Option.some.inj ht ▸ isLineComment_of_kind (by simp [hp.kind])
  opener := by simp [opensComment]
  depth := by simp [standing, after, isOpenParen, isCloseParen, hp.kind]
  conjunction := covered_cons.2 ⟨fun _ ↦ by simp [hp.kind], covered_nil⟩

theorem lexed_cons (hp : IsFilter p) (hb : Lexed b) (hs : Sealed (textOf b)) : Lexed (p :: b) := by
  refine hp.lexed.exchange hb ⟨fun h ↦ ?_, fun _ ↦ .inr hs.stops_numeric,
    fun _ _ ↦ .inr (.inr (.inr ⟨hs.1, ?_⟩))⟩
    ⟨fun h ↦ ?_, hb.slashFree⟩
  · rw [hp.isWord] at h
    cases h
  · simp [hp.kind]
  · have := hp.lexical.startsKind '/' (by rw [h]; rfl)
    rw [hp.kind] at this
    cases this

end IsFilter

/-- The keyword before a condition that a statement lacks. -/
def Token.whereWord : Token := ⟨.clause, "WHERE"⟩

/-- `WHERE` and a filter in front of other tokens. -/
def added (p : Token) (b : List Token) : List Token := space :: whereWord :: space :: p :: b

theorem textOf_added (p : Token) (b : List Token) :
    textOf (added p b) = ' ' :: ("WHERE " ++ p.text) ++ textOf b := by
  simp [added, space, whereWord]

theorem lexed_added (hb : Lexed b) (hp : IsFilter p) (hs : Sealed (textOf b)) :
    Lexed (added p b) := by
  have hsp : Lexed (space :: p :: b) :=
    (hp.lexed_cons hb hs).space_cons fun t ht ↦ Option.some.inj ht ▸ hp.isBlank
  have hw : Lexed [whereWord] := by decide
  have hl : leadingWords whereWord.text = ["where".toList] := (where_words hw (by decide)).2
  have hws : Lexed (whereWord :: space :: p :: b) :=
    hw.fixed_exchange rfl (by rw [hl]; decide) hsp (stops_space _)
  exact hws.space_cons fun t ht ↦ Option.some.inj ht ▸ rfl

theorem commentEnd_added (hp : IsFilter p) (hb : commentEnd (textOf b) = none) :
    commentEnd (textOf (added p b)) = none := by
  have h : commentEnd (p.text ++ textOf b) = none := by
    refine commentEnd_append hp.closed hb fun _ h ↦ ?_
    have := hp.lexical.endsKind (by simp [hp.kind]) (by simp [hp.kind]) '*' h
    rw [hp.kind] at this
    cases this
  rw [textOf_added, List.cons_append, List.append_assoc]
  exact commentEnd_append (u := " WHERE ") rfl h fun _ ↦ by decide

/-- A condition may be put behind tokens in place of what follows them. -/
theorem Lexed.append_added (ha : Lexed a)
    (hl : ∀ t ∈ a.getLast?, t.kind ≠ .blank ∧ t.kind ≠ .comment) (h : SlashFree (a ++ b))
    (hb : Lexed b') (hp : IsFilter p) (hs : Sealed (textOf b'))
    (hc : commentEnd (textOf b) = none → commentEnd (textOf b') = none) :
    Lexed (a ++ added p b') := by
  have hadd := lexed_added hb hp hs
  refine ha.append hadd (sealed_blank rfl _)
    ((ahead_blank rfl _).trans (hadd.tail.ahead_clause rfl)) hl
    (h.exchange hadd.slashFree ?_ fun e ↦
    commentEnd_added hp (hc e))
  rintro c ⟨⟩
  decide

/-- The tokens of a text without the white space at its end. -/
def trimmed (ts : List Token) : List Token := ts.rdropWhile Token.isBlank

/-- The white space at the end of a text. -/
def blankEnd (ts : List Token) : List Token := ts.rtakeWhile Token.isBlank

theorem trimmed_append_blankEnd (ts : List Token) : trimmed ts ++ blankEnd ts = ts :=
  List.rdropWhile_append_rtakeWhile

theorem isBlank_of_mem_blankEnd (ht : t ∈ blankEnd ts) : t.isBlank = true :=
  List.mem_rtakeWhile_imp ht

theorem mem_of_mem_trimmed (ht : t ∈ trimmed ts) : t ∈ ts := (List.rdropWhile_prefix _ ts).mem ht

theorem last_trimmed (hc : ∀ t ∈ ts, t.kind ≠ .comment) :
    ∀ t ∈ (trimmed ts).getLast?, t.kind ≠ .blank ∧ t.kind ≠ .comment := by
  intro t ht
  obtain ⟨hne, rfl⟩ := List.mem_getLast?_eq_getLast ht
  have hb : ¬((trimmed ts).getLast hne).isBlank := List.rdropWhile_last_not _ ts hne
  exact ⟨by simpa [Token.isBlank] using hb, hc _ (mem_of_mem_trimmed (List.getLast_mem hne))⟩

theorem lexed_trimmed (h : Lexed ts) (hc : ∀ t ∈ ts, t.kind ≠ .comment) : Lexed (trimmed ts) := by
  rw [← trimmed_append_blankEnd ts] at h
  exact h.dropBlanks (fun t ht ↦ isBlank_of_mem_blankEnd ht) (last_trimmed hc)

theorem Lexed.trimEnd (h : Lexed ts) (hc : ∀ t ∈ ts, t.kind ≠ .comment) :
    Text.trimEnd (textOf ts) = textOf (trimmed ts) := by
  have hg : ∀ c ∈ textOf (blankEnd ts), Text.isSpace c = true := by
    intro c hm
    obtain ⟨t, ht, hm⟩ := List.mem_flatMap.1 hm
    have hb := isBlank_of_mem_blankEnd ht
    have hl := h.lexical t ((List.rtakeWhile_suffix _ ts).mem ht)
    exact Text.isSpace_of_isBlank (hl.blank (by simpa [Token.isBlank] using hb) c hm)
  have e : textOf ts = textOf (trimmed ts) ++ textOf (blankEnd ts) := by
    rw [← textOf_append, trimmed_append_blankEnd]
  rw [e, trimEnd_append_spaces hg]
  rcases List.eq_nil_or_concat (trimmed ts) with hn | ⟨a, t, ha⟩
  · rw [hn]
    rfl
  · obtain ⟨hb, hk⟩ := last_trimmed hc t (by simp [ha])
    have hl := h.lexical t (mem_of_mem_trimmed (by simp [ha]))
    have e : textOf (a.concat t) = textOf a ++ t.text := by simp
    rw [ha, e, trimEnd_append (ink_of_lexical hl hb), (hl.solid hb hk).trimEnd]

theorem Lexed.spaceEnd (h : Lexed ts) (hc : ∀ t ∈ ts, t.kind ≠ .comment) :
    Text.spaceEnd (textOf ts) = textOf (blankEnd ts) := by
  have e : textOf (trimmed ts) ++ textOf (blankEnd ts) = textOf ts := by
    rw [← textOf_append, trimmed_append_blankEnd]
  have h' : Text.trimEnd (textOf ts) ++ Text.spaceEnd (textOf ts) =
      Text.trimEnd (textOf ts) ++ textOf (blankEnd ts) := by
    rw [Text.trimEnd_append_spaceEnd, h.trimEnd hc, e]
  exact List.append_cancel_left h'

/-- A clause keyword before which a missing `WHERE` belongs. -/
def isTrailing (t : Token) : Bool := t.kind = .clause && clausesAfterWhere.contains t.keyword

theorem isTrailing_def :
    isTrailing = fun t ↦ decide (t.kind = .clause) && clausesAfterWhere.contains t.keyword := rfl

/-- The tokens of a statement to which a filter was added. -/
def withFilter (p : Token) (ts : List Token) : List Token :=
  match cutOutside (isClause "where") ts with
  | some (a, w, b) => a ++ w :: guarded [p] b
  | none =>
    match cutOutside isTrailing ts with
    | some (a, t, b) => trimmed a ++ added p (space :: t :: b)
    | none => trimmed ts ++ added p (blankEnd ts)

/-- The ways in which a filter is added to a statement. -/
theorem withFilter_cases (p : Token) (ts : List Token) :
    (∃ a w b, cutOutside (isClause "where") ts = some (a, w, b) ∧
      withFilter p ts = a ++ w :: guarded [p] b) ∨
    Covered (isClause "where") 0 ts ∧ ((∃ a t b, cutOutside isTrailing ts = some (a, t, b) ∧
        withFilter p ts = trimmed a ++ added p (space :: t :: b)) ∨
      Covered isTrailing 0 ts ∧ withFilter p ts = trimmed ts ++ added p (blankEnd ts)) := by
  rw [withFilter]
  cases hw : cutOutside (isClause "where") ts with
  | some q => exact .inl ⟨_, _, _, rfl, rfl⟩
  | none =>
    refine .inr ⟨cutOutside_eq_none_iff.1 hw, ?_⟩
    cases ht : cutOutside isTrailing ts with
    | some q => exact .inl ⟨_, _, _, rfl, rfl⟩
    | none => exact .inr ⟨cutOutside_eq_none_iff.1 ht, rfl⟩

theorem attach_of_lexed (h : Lexed ts) (hc : ∀ t ∈ ts, t.kind ≠ .comment) (x : Text) :
    attach (textOf ts) x = textOf (trimmed ts) ++ ' ' :: x := by
  have he := endsInLineComment_of_lexed (lexed_trimmed h hc) fun t ht ↦ hc t (mem_of_mem_trimmed ht)
  simp only [attach, h.trimEnd hc, he]
  rfl

theorem kind_of_isTrailing (h : isTrailing t = true) : t.kind = .clause := by
  simp only [isTrailing, Bool.and_eq_true, decide_eq_true_eq] at h
  exact h.1

/-- A statement without comments is filtered token by token. -/
theorem filterTokens_eq (h : Lexed ts) (hc : ∀ t ∈ ts, t.kind ≠ .comment) (p : Token) :
    filterTokens p.text ts = textOf (withFilter p ts) := by
  rw [filterTokens, withFilter]
  cases hw : cutOutside (isClause "where") ts with
  | some q => simp [textOf_guarded]
  | none =>
    dsimp only
    rw [← isTrailing_def]
    cases ht : cutOutside isTrailing ts with
    | some q =>
      obtain ⟨rfl, -, -, ht⟩ := cutOutside_eq_some_iff.1 ht
      have ha := h.left_of_clause (kind_of_isTrailing ht)
      simp [attach_of_lexed ha fun t ht ↦ hc t (List.mem_append_left _ ht), textOf_added, space]
    | none => simp [attach_of_lexed h hc, h.spaceEnd hc, textOf_added]

/-- A statement in which the filter is set off from what follows: it stands before a condition,
before a clause or before white space. -/
def Seamed (ts : List Token) : Prop :=
  ¬Covered (isClause "where") 0 ts ∨ ¬Covered isTrailing 0 ts ∨ blankEnd ts ≠ []

/-- A filtered statement is read token by token where nothing runs into the filter. -/
theorem Lexed.withFilter_append (h : Lexed (ts ++ b)) (ht : Lexed ts)
    (hc : ∀ t ∈ ts, t.kind ≠ .comment) (hp : IsFilter p) (hs : Seamed ts ∨ Sealed (textOf b)) :
    Lexed (withFilter p ts ++ b) := by
  rcases withFilter_cases p ts with ⟨a, w, c, hcut, e⟩ | ⟨hw, ⟨a, t, c, hcut, e⟩ | ⟨ht', e⟩⟩
  · obtain ⟨rfl, -, -, hw⟩ := cutOutside_eq_some_iff.1 hcut
    have hclosed : commentEnd (textOf [p]) = none := by simpa using hp.closed
    rw [List.append_assoc, List.cons_append] at h
    have := h.append_guarded hw hp.isPredicate hclosed
    rw [e]
    simpa [QueryTemplate.guarded] using this
  · obtain ⟨rfl, -, -, hk⟩ := cutOutside_eq_some_iff.1 hcut
    have ha := ht.left_of_clause (kind_of_isTrailing hk)
    have hca : ∀ t ∈ a, t.kind ≠ .comment := fun t ht ↦ hc t (List.mem_append_left _ ht)
    have h : Lexed (trimmed a ++ (blankEnd a ++ t :: (c ++ b))) := by
      rw [← List.append_assoc, trimmed_append_blankEnd]
      simpa using h
    have htail : Lexed (t :: (c ++ b)) := h.suffix.suffix
    have hb : Lexed (space :: t :: (c ++ b)) :=
      htail.space_cons fun u hu ↦
        Option.some.inj hu ▸ by simp [Token.isBlank, kind_of_isTrailing hk]
    have := (lexed_trimmed ha hca).append_added (last_trimmed hca) h.slashFree hb hp
      (sealed_blank rfl _) fun hn ↦ by
      rw [textOf_append] at hn
      exact commentEnd_append (u := [' ']) rfl (commentEnd_of_append hn) fun _ ↦ by decide
    rw [e]
    simpa [added] using this
  · have h : Lexed (trimmed ts ++ (blankEnd ts ++ b)) := by
      rwa [← List.append_assoc, trimmed_append_blankEnd]
    have hb : Sealed (textOf (blankEnd ts ++ b)) := by
      refine h.suffix.sealed (fun t ht ↦ isBlank_of_mem_blankEnd ht) (hs.imp_left fun hs ↦ ?_)
      exact (hs.resolve_left fun e ↦ e hw).resolve_left fun e ↦ e ht'
    have := (lexed_trimmed ht hc).append_added (last_trimmed hc) h.slashFree h.suffix hp hb id
    rw [e]
    simpa [added] using this

/-- A filtered statement is read token by token. -/
theorem lexed_withFilter (h : Lexed ts) (hc : ∀ t ∈ ts, t.kind ≠ .comment) (hp : IsFilter p) :
    Lexed (withFilter p ts) := by
  have := Lexed.withFilter_append (b := []) (by rwa [List.append_nil]) h hc hp (.inr sealed_nil)
  rwa [List.append_nil] at this

theorem filterStatement_textOf (h : Lexed ts) (hc : ∀ t ∈ ts, t.kind ≠ .comment) (p : Token) :
    filterStatement (textOf ts) p.text = .ok (textOf (withFilter p ts)) := by
  rw [filterStatement, tokens?_eq_ok_iff.2 ⟨rfl, h⟩, Except.map, filterTokens_eq h hc]

end QueryTemplate
