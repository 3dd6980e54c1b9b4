import QueryTemplate.Proofs.Token.Cut
import QueryTemplate.Proofs.Token.Splice
namespace QueryTemplate

open Token Grammar

variable {r r' s x y : Text} {a b ts : List Token} {t z : Token}

/-- A text that is empty or starts with a parenthesis or a comma. -/
def Fenced (r : Text) : Prop := ∀ c ∈ r.head?, c = '(' ∨ c = ')' ∨ c = ','

namespace Fenced

theorem sealed (h : Fenced r) : Sealed r := by
  refine ⟨fun c hc ↦ ?_, fun hc ↦ ?_⟩
  · rcases h c hc with rfl | rfl | rfl <;> rfl
  · rcases h '.' hc with e | e | e <;> cases e

theorem endsPhrase (h : Fenced r) : EndsPhrase r where
  blank c hc := by rcases h c hc with rfl | rfl | rfl <;> rfl
  words := by
    refine phraseRest_leadingWords ?_
    rw [Bool.eq_false_iff, Ne, Option.any_eq_true]
    rintro ⟨c, hc, hw⟩
    rcases h c hc with rfl | rfl | rfl <;> cases hw

theorem head_ne_slash (h : Fenced r) : r.head? ≠ some '/' := fun hc ↦ by
  rcases h '/' hc with e | e | e <;> cases e

theorem head_ne_star (h : Fenced r) : r.head? ≠ some '*' := fun hc ↦ by
  rcases h '*' hc with e | e | e <;> cases e

theorem of_isOpenParen (h : t.isOpenParen = true) (r : Text) : Fenced (t.text ++ r) := by
  rw [(isBlank_of_isOpenParen h).2.1]
  exact fun c hc ↦ .inl (Option.some.inj hc).symm

theorem of_isCloseParen (h : t.isCloseParen = true) (r : Text) : Fenced (t.text ++ r) := by
  rw [(isBlank_of_isCloseParen h).2.1]
  exact fun c hc ↦ .inr (.inl (Option.some.inj hc).symm)

theorem of_isComma (h : t.isComma = true) (r : Text) : Fenced (t.text ++ r) := by
  rw [eq_comma h]
  exact fun c hc ↦ .inr (.inr (Option.some.inj hc).symm)

end Fenced

/-- Tokens that are read in a row are the first ones of a text. -/
theorem Leads.scan_eq (h : Leads r a) :
    scan (textOf a ++ r) = ⟨a ++ (scan r).tokens, (scan r).rest⟩ := by
  induction a with
  | nil => rfl
  | cons t a ih =>
    rw [textOf_cons, List.append_assoc, scan_of_munch h.1, ih h.2]
    rfl

/-- What follows some tokens of a text is read as it is behind them. -/
theorem scan_of_tokens (h : (scan s).tokens = a ++ b) :
    scan (textOf b ++ (scan s).rest) = ⟨b, (scan s).rest⟩ := by
  obtain ⟨hs, hl⟩ := leads_of_scan h
  have hscan := hl.scan_eq
  rw [← hs] at hscan
  cases hq : scan (textOf b ++ (scan s).rest) with
  | mk ts q =>
    simp only [hq] at hscan
    rw [hscan] at h ⊢
    exact congrArg (Scan.mk · q) (List.append_cancel_left h)

/-- A fence behind some tokens can be exchanged for another, if that ends no comment which they open. -/
theorem Leads.fence (h : Leads r a) (hr : Fenced r) (hr' : Fenced r')
    (hh : r'.head? = r.head? ∨ ∀ t ∈ a, t.kind ≠ .comment)
    (hc : opensComment a = true → commentEnd r = none → commentEnd r' = none) : Leads r' a := by
  refine h.exchange hr.endsPhrase hr'.endsPhrase hr'.sealed.1 (fun u x hn ↦ ?_) (fun t ha hw hk ht ↦ ?_)
    fun ho x hx ↦ ?_
  · refine number_congr hn (.inl ?_)
    rw [Text.takeWhile_append_of_stops hr.sealed.stops_numeric,
      Text.takeWhile_append_of_stops hr'.sealed.stops_numeric]
  · by_cases hb : t.kind = .blank
    · obtain ⟨k, u⟩ := t
      obtain rfl : k = .blank := hb
      obtain ⟨h₁, h₂, -⟩ := munch_blank_iff.1 ht
      exact munch_blank_iff.2 ⟨h₁, h₂, hr'.endsPhrase.blank⟩
    · have hf : family t.kind ≠ .identifier := fun e ↦ by simp [ht.isWord_iff.2 e] at hw
      refine munch_symbol_congr ht hf hk (hh.imp_right fun hh ↦ ?_) fun _ x hx ↦ ?_
      · exact ⟨hr'.sealed.1, hb, hh t (List.mem_of_getLast? ha)⟩
      · exact absurd (hx ▸ rfl) hr'.head_ne_star
  · exact commentEnd_append (commentEnd_left hx) (hc ho (commentEnd_of_append hx))
      fun e ↦ absurd e hr'.head_ne_slash

theorem readBefore_of_isOpenParen (h : t.isOpenParen = true) (r : Text) : t.ReadBefore r := by
  obtain ⟨k, u⟩ := t
  obtain ⟨rfl, rfl, -⟩ := isBlank_of_isOpenParen h
  exact munch_opening_iff.2 (.inl rfl)

theorem readBefore_of_isComma (h : t.isComma = true) (r : Text) : t.ReadBefore r := by
  rw [eq_comma h]
  refine munch_punctuation_iff.2 ⟨rfl, ?_⟩
  have hpairs : ∀ w ∈ pairs, w.head? ≠ some ',' := by decide
  have htake : (([','] : Text) ++ r).take 2 = ',' :: r.head?.toList := by cases r <;> rfl
  rw [operator_eq, if_neg, if_neg]
  · simp [singles, comma]
  · exact fun hm ↦ hpairs _ (htake ▸ hm) rfl

/-- A token after which an argument starts. -/
def Token.isOpener (t : Token) : Bool := t.isOpenParen || t.isComma

/-- A token before which an argument ends. -/
def Token.isCloser (t : Token) : Bool := t.isCloseParen || t.isComma

theorem readBefore_of_isOpener (h : z.isOpener = true) (r : Text) : z.ReadBefore r :=
  (Bool.or_eq_true _ _ ▸ h).elim (readBefore_of_isOpenParen · r) (readBefore_of_isComma · r)

theorem Fenced.of_isOpener (h : z.isOpener = true) (r : Text) : Fenced (z.text ++ r) :=
  (Bool.or_eq_true _ _ ▸ h).elim (.of_isOpenParen · r) (.of_isComma · r)

theorem Fenced.of_isCloser (h : z.isCloser = true) (r : Text) : Fenced (z.text ++ r) :=
  (Bool.or_eq_true _ _ ▸ h).elim (.of_isCloseParen · r) (.of_isComma · r)

theorem text_of_isOpener (h : z.isOpener = true) : z.text = ['('] ∨ z.text = [','] := by
  rcases Bool.or_eq_true _ _ ▸ h with h | h
  · exact .inl (isBlank_of_isOpenParen h).2.1
  · exact .inr (by rw [eq_comma h]; rfl)

theorem commentEnd_opener (h : z.isOpener = true) (hx : commentEnd x = none) :
    commentEnd (z.text ++ x) = none := by
  rcases text_of_isOpener h with e | e <;> rw [e] <;> exact commentEnd_append rfl hx fun _ ↦ by decide

/-- Tokens that are a text of their own are read before a fence, too. -/
theorem Lexed.leads (h : Lexed ts) (hr : Fenced r) (hc : ∀ t ∈ ts, t.kind ≠ .comment)
    (ho : opensComment ts = false) : Leads r ts := by
  refine (leads_nil_iff.2 h).fence (by simp [Fenced]) hr (.inr hc) fun e ↦ ?_
  rw [ho] at e
  cases e

/-- The tokens up to the start of an argument are read alone. -/
theorem Leads.lexed_opener (h : Leads r (a ++ [z])) (hz : z.isOpener = true) : Lexed (a ++ [z]) := by
  obtain ⟨ha, -⟩ := leads_append.1 h
  refine leads_nil_iff.1 (leads_append.2 ⟨?_, readBefore_of_isOpener hz _, trivial⟩)
  rw [textOf_cons, List.append_assoc] at ha ⊢
  have hz' := readBefore_of_isOpener hz []
  exact ha.fence (.of_isOpener hz _) (.of_isOpener hz _) (.inl (by rw [hz'.head_append, hz'.head_append]))
    fun _ _ ↦ commentEnd_opener hz rfl

/-- The tokens of an argument can be exchanged for others that are a text of their own, if these end
no comment that is opened ahead of them. -/
theorem scan_exchange {w us : List Token} {e : Token} (hs : (scan s).tokens = a ++ z :: (us ++ e :: b))
    (hz : z.isOpener = true) (he : e.isCloser = true) (hw : Lexed w) (hk : ∀ t ∈ w, t.kind ≠ .comment)
    (ho : opensComment w = false) (hc : opensComment a = true → commentEnd (textOf w) = none) :
    scan (textOf (a ++ z :: (w ++ e :: b)) ++ (scan s).rest) = ⟨a ++ z :: (w ++ e :: b), (scan s).rest⟩ := by
  have hfence : Fenced (textOf (e :: b) ++ (scan s).rest) := by
    rw [textOf_cons, List.append_assoc]
    exact .of_isCloser he _
  have hleads : Leads (textOf (e :: b) ++ (scan s).rest) (a ++ z :: w) := by
    refine leads_append.2 ⟨?_, readBefore_of_isOpener hz _, hw.leads hfence hk ho⟩
    have ha := (leads_of_scan hs).2
    rw [textOf_cons, List.append_assoc] at ha ⊢
    have hz' := readBefore_of_isOpener hz []
    refine ha.fence (.of_isOpener hz _) (.of_isOpener hz _) (.inl ?_) fun h hn ↦ ?_
    · rw [hz'.head_append, hz'.head_append]
    · rw [textOf_append, List.append_assoc, ← List.append_assoc] at hn
      exact commentEnd_opener hz
        (commentEnd_append (hc h) (commentEnd_of_append hn) fun e ↦ absurd e hfence.head_ne_slash)
  have hrest : (scan s).tokens = (a ++ z :: us) ++ e :: b := by rw [hs, List.append_assoc, List.cons_append]
  have hscan := hleads.scan_eq
  rw [scan_of_tokens hrest, ← List.append_assoc, ← textOf_append] at hscan
  simpa using hscan

end QueryTemplate
