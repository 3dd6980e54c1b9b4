import QueryTemplate.Proofs.Query.Rewrites
import QueryTemplate.Proofs.Query.Chapters
namespace QueryTemplate

open Token Fragment Grammar

/-- The expression with further tokens. -/
def Fragment.extend (f : Fragment) (ts : List Token) : Fragment :=
  (inked ts).foldl (fun f t ↦ f.pushToken t) f

/-- Tokens with the spaces that they get in an expression after `f`. -/
def woven (f : Fragment) : List Token → List Token
  | [] => []
  | t :: ts => if t.isBlank then woven f ts else spacing f t ++ t :: woven (f.pushToken t) ts

variable {f : Fragment} {p : Option Token} {t : Token} {ts us vs : List Token} {z : List Token}
    {d e : Nat}

@[simp] theorem extend_nil (f : Fragment) : f.extend [] = f := rfl

theorem extend_blank (h : t.isBlank = true) (f : Fragment) (ts : List Token) :
    f.extend (t :: ts) = f.extend ts := by
  rw [Fragment.extend, inked_cons_blank h, Fragment.extend]

theorem extend_cons (h : t.isBlank = false) (f : Fragment) (ts : List Token) :
    f.extend (t :: ts) = (f.pushToken t).extend ts := by
  rw [Fragment.extend, inked_cons h, List.foldl_cons, Fragment.extend]

theorem woven_blank (h : t.isBlank = true) (f : Fragment) (ts : List Token) :
    woven f (t :: ts) = woven f ts := by
  rw [woven, if_pos h]

theorem woven_cons (h : t.isBlank = false) (f : Fragment) (ts : List Token) :
    woven f (t :: ts) = spacing f t ++ t :: woven (f.pushToken t) ts := by
  rw [woven, if_neg (by simp [h])]

theorem text_extend (f : Fragment) (ts : List Token) :
    (f.extend ts).text = f.text ++ textOf (woven f ts) := by
  induction ts generalizing f with
  | nil => simp [woven]
  | cons t ts ih =>
    cases ht : t.isBlank with
    | true => rw [extend_blank ht, woven_blank ht, ih]
    | false =>
      rw [extend_cons ht, woven_cons ht, ih, text_pushToken]
      simp

theorem inked_woven (f : Fragment) (ts : List Token) : inked (woven f ts) = inked ts := by
  induction ts generalizing f with
  | nil => rfl
  | cons t ts ih =>
    cases ht : t.isBlank with
    | true => rw [woven_blank ht, inked_cons_blank ht, ih]
    | false =>
      have hs : inked (spacing f t) = [] := by
        rw [spacing]
        split <;> rfl
      rw [woven_cons ht, inked_append, hs, List.nil_append, inked_cons ht, inked_cons ht, ih]

theorem extend_congr (h : inked ts = inked us) (f : Fragment) : f.extend ts = f.extend us := by
  rw [Fragment.extend, h, Fragment.extend]

theorem depth_extend (hf : f.depth = d) (h : depthRun d ts = some e) : (f.extend ts).depth = e := by
  induction ts generalizing f d with
  | nil =>
    obtain rfl := Option.some.inj h
    exact hf
  | cons t ts ih =>
    cases ht : t.isBlank with
    | true =>
      have hk : t.kind = .blank := by simpa [Token.isBlank] using ht
      rw [extend_blank ht]
      refine ih hf ?_
      simpa [depthRun, isOpenParen, isCloseParen, hk] using h
    | false =>
      obtain ⟨h₁, h₂⟩ := depthRun_cons (f := f) h
      rw [extend_cons ht]
      exact ih (h₂ hf) h₁

/-- What each token keeps of an expression, all of them do. -/
theorem extend_induction {P : Fragment → Prop} (hf : P f)
    (h : ∀ f, ∀ t ∈ ts, t.isBlank = false → P f → P (f.pushToken t)) : P (f.extend ts) := by
  induction ts generalizing f with
  | nil => exact hf
  | cons t ts ih =>
    have hts := fun f u hu ↦ h f u (List.mem_cons_of_mem t hu)
    cases ht : t.isBlank with
    | true =>
      rw [extend_blank ht]
      exact ih hf hts
    | false =>
      rw [extend_cons ht]
      exact ih (h f t List.mem_cons_self ht hf) hts

/-- Tokens laid out anew that end a name or a number before them, and go on with the words of the
old ones. -/
structure Onward (z ts ps : List Token) : Prop where
  relaid : Relaid z ts ps
  sealed : Sealed (textOf ps)
  words : ahead ts = ahead ps

theorem Ending.onward (h : Ending z ts us) : Onward z ts us :=
  ⟨h.relaid, h.sealed, h.old.trans h.new.symm⟩

theorem Onward.loose (h : Onward z ts us) (t : Token) : Loose t us :=
  .inr (.inr ⟨h.sealed.1, fun _ ↦ h.sealed.stops_numeric⟩)

/-- Tokens are put into an expression with the spaces they need. -/
theorem Onward.weave (hf : f.EndsIn p) (ht : ∀ t ∈ ts, Lexical t ∧ Neat t) (ha : PointsApart p ts)
    (h : Onward z vs us) :
    Relaid z (ts ++ vs) (woven f ts ++ us) ∧ ahead (ts ++ vs) = ahead (woven f ts ++ us) ∧
      ∀ q ∈ p, Loose q (woven f ts ++ us) := by
  induction ts generalizing f p with
  | nil => exact ⟨h.relaid, h.words, fun q _ ↦ h.loose q⟩
  | cons t ts ih =>
    obtain ⟨⟨hl, hs⟩, ht⟩ := List.forall_mem_cons.1 ht
    cases hb : t.isBlank with
    | true =>
      obtain ⟨h₁, h₂, h₃⟩ := ih hf ht ((pointsApart_blank hb).1 ha)
      rw [woven_blank hb]
      exact ⟨.skip hb h₁, (ahead_blank hb _).trans h₂, h₃⟩
    | false =>
      have hk : t.kind ≠ .blank := by simpa [Token.isBlank] using hb
      obtain ⟨ha, hap⟩ := (pointsApart_cons hb).1 ha
      obtain ⟨h₁, h₂, h₃⟩ := ih (hf.pushToken hl hs hk) ht hap
      rw [woven_cons hb, List.append_assoc]
      exact relaid_push hf hl hs hk ha h₁ h₂ (h₃ t rfl)

/-- No space goes before the first token of an expression. -/
theorem exists_woven (hf : f.text = []) (hne : inked ts ≠ []) :
    ∃ t us, woven f ts = t :: us ∧ t.isBlank = false := by
  induction ts with
  | nil => exact absurd rfl hne
  | cons t ts ih =>
    cases hb : t.isBlank with
    | true =>
      rw [woven_blank hb]
      rw [inked_cons_blank hb] at hne
      exact ih hne
    | false =>
      rw [woven_cons hb, spacing_of_empty hf]
      exact ⟨t, _, rfl, hb⟩

/-- Tokens that are put into an expression are read again from its text, with the spaces that they
get there. -/
theorem tokens_written {s : Text} (hs : tokens? s = .ok ts) (hn : ∀ t ∈ ts, Neat t)
    (ha : PointsApart none ts) :
    ∃ us, tokens? (written ts).text = .ok us ∧ inked us = inked ts ∧
      (written us).text = (written ts).text := by
  obtain ⟨rfl, hl⟩ := tokens?_eq_ok_iff.1 hs
  have hlex : ∀ t ∈ ts, Lexical t ∧ Neat t := fun t ht ↦ ⟨hl.lexical t ht, hn t ht⟩
  obtain ⟨hrel, -, -⟩ := (Ending.nil (z := []) rfl).onward.weave endsIn_empty hlex ha
  rw [List.append_nil, List.append_nil] at hrel
  have htext : (written ts).text = textOf (woven {} ts) := text_extend {} ts
  have hink := inked_woven {} ts
  exact ⟨woven {} ts, tokens?_eq_ok_iff.2 ⟨htext.symm, hrel.lexed hl⟩, hink,
    by rw [written, written, hink]⟩

theorem tokens_written_call :
    ∃ ts us, tokens? "f ( a,b [ 1 ] ) .c NOT  IN( $rate ( 'y' ) )-1.5" = .ok ts ∧
    tokens? "f(a, b[1]).c NOT  IN ($rate('y')) - 1.5" = .ok us ∧ inked us = inked ts ∧
      (written us).text = "f(a, b[1]).c NOT  IN ($rate('y')) - 1.5" := by
  let ts := (scan "f ( a,b [ 1 ] ) .c NOT  IN( $rate ( 'y' ) )-1.5").tokens
  have hrest : (scan "f ( a,b [ 1 ] ) .c NOT  IN( $rate ( 'y' ) )-1.5").rest = [] := by
    decide +kernel
  have hs : tokens? "f ( a,b [ 1 ] ) .c NOT  IN( $rate ( 'y' ) )-1.5" = .ok ts := by
    rw [tokens?, hrest]; rfl
  have htext : (written ts).text = "f(a, b[1]).c NOT  IN ($rate('y')) - 1.5" := by decide +kernel
  obtain ⟨us, hus, hink, hagain⟩ := tokens_written hs (by decide +kernel) (by decide +kernel)
  rw [htext] at hus hagain
  exact ⟨ts, us, hs, hus, hink, hagain⟩

end QueryTemplate
