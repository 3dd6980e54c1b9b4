import QueryTemplate.Proofs.Token.Relaid
import QueryTemplate.Proofs.Token.Solid
namespace QueryTemplate
namespace Grammar

open Recognizer

theorem ends_digits : Ends Char.isDigit digits := (Ends.one fun _ h ↦ h).seq (.many fun _ h ↦ h)

theorem ends_exponent : Ends Char.isDigit exponent :=
  .seq_consumes (Splits.word _) (.seq_consumes (.maybe (Consumes.one _).toSplits) ends_digits
    (.many1 _))
    ((Splits.maybe (Consumes.one _).toSplits).seq_consumes (.many1 _))

/-- A number that ends in a point is digits and the point. -/
theorem digits_of_number_point {u : Text} (h : number u = some []) (hl : u.getLast? = some '.') :
    ∃ d : Text, d ≠ [] ∧ (∀ c ∈ d, c.isDigit = true) ∧ u = d ++ ['.'] := by
  have hends : ∀ {p : Char → Bool} {a : Recognizer}, Ends p a → p '.' = false → a u ≠ some [] := by
    intro p a ha hp e
    have := ha.last (u := u) (r := []) (by rwa [List.append_nil]) '.' hl
    rw [hp] at this
    cases this
  have hhex : Ends isHexDigit hex :=
    .seq_consumes (Consumes.exactly (by simp)).toSplits
      ((Ends.one fun _ h ↦ h).seq (.many fun _ h ↦ h)) (.many1 _)
  have hscaled : Ends Char.isDigit scaled := ends_digits.seq (.maybe ends_exponent)
  have hpoint : Ends Char.isDigit ((exactly ".").seq scaled) :=
    .seq_consumes (Consumes.exactly (by simp)).toSplits hscaled
      ((Consumes.many1 _).seq (.maybe consumes_exponent.toSplits))
  obtain ⟨a, ha, e⟩ := List.exists_of_findSome?_eq_some (number_eq ▸ h)
  simp only [List.mem_cons, List.not_mem_nil, or_false] at ha
  rcases ha with rfl | rfl | rfl | rfl | rfl
  · exact absurd e (hends hhex rfl)
  · obtain ⟨x, hd, hx⟩ := decimal_eq_some_iff.1 e
    obtain ⟨d, hne, hall, -, rfl⟩ := digits_eq_some_iff.1 hd
    refine ⟨d, hne, hall, ?_⟩
    cases hxl : x.getLast? with
    | none => rw [List.getLast?_eq_none_iff.1 hxl]
    | some c =>
      have hc := ((Ends.many fun _ h ↦ h).seq
        (.maybe ends_exponent) : Ends Char.isDigit fraction).last (u := x)
        (r := []) (by rwa [List.append_nil]) c hxl
      rw [List.getLast?_append, List.getLast?_cons, hxl] at hl
      obtain rfl := Option.some.inj hl
      cases hc
  · exact absurd e (hends hpoint rfl)
  · exact absurd e (hends (ends_digits.seq ends_exponent) rfl)
  · exact absurd e (hends ends_digits rfl)

/-- A number that ends in a point goes on with digits or an exponent only. -/
theorem number_append_of_point {u r : Text} (h : number u = some []) (hl : u.getLast? = some '.')
    (hr : Text.Stops (fun c ↦ c.isDigit || c = 'e' || c = 'E') r) : number (u ++ r) = some r := by
  obtain ⟨d, hne, hall, rfl⟩ := digits_of_number_point h hl
  have hx : hex (d ++ ['.'] ++ r) = none := by
    cases e : hex (d ++ ['.'] ++ r) with
    | none => rfl
    | some w =>
      obtain ⟨x, hx, -⟩ := hex_eq_some_iff.1 e
      cases d with
      | nil => exact absurd rfl hne
      | cons c d =>
        cases d with
        | nil => simp at hx
        | cons b d =>
          obtain ⟨-, hx⟩ := List.cons.inj hx
          obtain ⟨rfl, -⟩ := List.cons.inj hx
          cases hall 'x' (by simp)
  have hstop : Text.Stops Char.isDigit r := fun c hc ↦ by
    have := hr c hc
    simp only [Bool.or_eq_false_iff] at this
    exact this.1.1
  have he : exponent r = none := by
    cases e : exponent r with
    | none => rfl
    | some w =>
      obtain ⟨c, g, x, hc, -, -, rfl⟩ := exponent_eq_some_iff.1 e
      have := hr c rfl
      rcases hc with rfl | rfl <;> cases this
  have hf : fraction r = some r := by
    rw [fraction, seq, many, Text.dropWhile_of_stops hstop, Option.bind_some, maybe, he]
    rfl
  have hd : decimal (d ++ ['.'] ++ r) = some r := by
    rw [List.append_assoc]
    exact decimal_eq_some_iff.2 ⟨r, digits_append hne hall (by simp), hf⟩
  simp only [number_eq, oneOf, List.findSome?_cons, hx, hd]

/-- A line comment is what two dashes start, up to the end of the line. -/
theorem munch_lineComment_iff {u r : Text} (hu : ['-', '-'].isPrefixOf u = true) :
    munch (u ++ r) = some (⟨.comment, u⟩, r) ↔ (∀ c ∈ u, c ≠ '\n') ∧ Text.Stops (· ≠ '\n') r := by
  obtain ⟨x, rfl⟩ := List.isPrefixOf_iff_prefix.1 hu
  have hl : lineComment (['-', '-'] ++ x ++ r) = some ((x ++ r).dropWhile (· ≠ '\n')) := rfl
  rw [munch_comment_iff, comment, oneOf, List.findSome?_cons, hl, Option.some.injEq]
  constructor
  · intro h
    have hs := List.takeWhile_append_dropWhile (p := (· ≠ '\n')) (l := x ++ r)
    have hst := Text.stops_dropWhile (· ≠ '\n') (x ++ r)
    rw [h] at hs hst
    have hx := List.append_cancel_right hs
    refine ⟨fun c hc ↦ ?_, hst⟩
    rcases List.mem_append.1 hc with hc | hc
    · rintro rfl
      simp at hc
    · have := Text.mem_takeWhile (hx.symm ▸ hc)
      simpa using this
  · rintro ⟨hx, hr⟩
    exact Text.dropWhile_append_stops
      (fun c hc ↦ by simpa using hx c (List.mem_append_right _ hc)) hr

end Grammar

open Token Grammar

theorem lexed_singleton {t : Token} : Lexed [t] ↔ munch (t.text ++ []) = some (t, []) := by
  rw [lexed_cons]
  exact ⟨And.left, fun h ↦ ⟨h, lexed_nil⟩⟩

/-- The tokens `ps` take nothing of the token `t` just before them. -/
structure Admits (t : Token) (ps : List Token) : Prop where
  blank : t.kind = .blank → Text.Stops Text.isBlank (textOf ps)
  comment : t.isLineComment = true → Text.Stops (· ≠ '\n') (textOf ps)
  word : t.isWord = true →
    Text.Stops Text.isNameChar (textOf ps) ∧ (leadingWords t.text ∈ fixedPhrases ∨ ahead ps = [])
  number : t.kind = .number → Text.Stops isNumeric (textOf ps) ∨
    t.text.getLast? = some '.' ∧ Text.Stops (fun c ↦ c.isDigit || c = 'e' || c = 'E') (textOf ps)
  symbol : t.isWord = false → t.kind ≠ .number → t.kind ≠ .blank → t.kind ≠ .comment →
    t.kind = .opening ∨ (t.kind = .operator ∧ t.text = ['.'] ∧
      Text.Stops Char.isDigit (textOf ps)) ∨
      Delimited (textOf ps)

theorem slashFree_singleton (t : Token) : SlashFree [t] := ⟨fun _ _ ↦ nofun, trivial⟩

/-- A token that is a text of its own is read before tokens that take nothing of it. -/
theorem Lexed.before {t : Token} {ps : List Token} (ht : Lexed [t]) (hp : Lexed ps)
    (h : Admits t ps) :
    Lexed (t :: ps) := by
  have hm := lexed_singleton.1 ht
  by_cases hb : t.kind = .blank
  · obtain ⟨k, u⟩ := t
    obtain rfl : k = .blank := hb
    obtain ⟨h₁, h₂, -⟩ := munch_blank_iff.1 hm
    exact lexed_cons.2 ⟨munch_blank_iff.2 ⟨h₁, h₂, h.blank rfl⟩, hp⟩
  by_cases hc : t.kind = .comment
  · obtain ⟨k, u⟩ := t
    obtain rfl : k = .comment := hc
    refine lexed_cons.2 ⟨?_, hp⟩
    by_cases hl : ['-', '-'].isPrefixOf u = true
    · exact (munch_lineComment_iff hl).2 ⟨((munch_lineComment_iff hl).1 hm).1,
        h.comment (by simpa [isLineComment] using hl)⟩
    · exact munch_comment_congr hm fun e ↦ absurd e hl
  by_cases hn : t.kind = .number ∧ t.text.getLast? = some '.'
  · obtain ⟨k, u⟩ := t
    obtain ⟨rfl, hl⟩ := hn
    refine lexed_cons.2 ⟨munch_number_iff.2 ?_, hp⟩
    have hu := munch_number_iff.1 hm
    rw [List.append_nil] at hu
    rcases h.number rfl with hs | ⟨-, hs⟩
    · exact number_congr (munch_number_iff.1 hm) (.inr hs)
    · exact number_append_of_point hu hl hs
  · refine ht.exchange hp ⟨fun hw ↦ ?_, fun hk ↦ .inr ?_, fun hw hk ↦ ?_⟩ ⟨fun e x hx ↦ ?_,
      hp.slashFree⟩
    · exact ⟨(h.word hw).1, (h.word hw).2.imp_right Eq.symm⟩
    · exact (h.number hk).resolve_right fun e ↦ hn ⟨hk, e.1⟩
    · exact (h.symbol hw hk hb hc).imp_right (·.imp_right fun e ↦ .inr ⟨e, hb, hc⟩)
    · have hs := Lexical.startsKind ⟨[], ht⟩ '/' (by rw [e]; rfl)
      have hw : t.isWord = false := by rw [Token.isWord, e]; rfl
      rcases h.symbol hw (fun hk ↦ by rw [hk] at hs; cases hs) hb hc with hk | ⟨-, he, -⟩ | hd
      · rw [hk] at hs
        cases hs
      · rw [e] at he
        cases he
      · rw [hx] at hd
        cases hd '*' rfl

/-- A token that no phrase ends in is a text of its own. -/
theorem Lexed.alone {t : Token} {us : List Token} (h : Lexed (t :: us)) (hb : t.kind ≠ .blank)
    (hw : t.isWord = true → leadingWords t.text ∈ fixedPhrases ∨ ahead us = []) : Lexed [t] := by
  by_cases hc : t.kind = .comment
  · have hm := munch_of_lexed h
    obtain ⟨k, u⟩ := t
    obtain rfl : k = .comment := hc
    refine lexed_singleton.2 ?_
    by_cases hl : ['-', '-'].isPrefixOf u = true
    · exact (munch_lineComment_iff hl).2 ⟨((munch_lineComment_iff hl).1 hm).1, Text.stops_nil _⟩
    · exact munch_comment_congr hm fun e ↦ absurd e hl
  · exact h.exchange lexed_nil ⟨fun e ↦ ⟨Text.stops_nil _, hw e⟩, fun _ ↦ .inr (Text.stops_nil _),
      fun _ _ ↦ .inr (.inr (.inr ⟨nofun, hb, hc⟩))⟩ (slashFree_singleton t)

end QueryTemplate
