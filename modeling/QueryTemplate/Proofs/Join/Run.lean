import QueryTemplate.Proofs.Query.PrintTally
import QueryTemplate.Proofs.Query.Roundtrip
import QueryTemplate.Proofs.Query.Woven
namespace QueryTemplate

open Token Fragment Grammar

variable {f : Fragment} {p : Option Token} {t : Token} {ts us vs : List Token} {z : List Token}

theorem clean_extend (hf : f.Clean) (ts : List Token) : (f.extend ts).Clean :=
  extend_induction hf fun f t _ _ _ ↦ clean_pushToken f t

/-- Tokens that an expression holds as they are. -/
def Firm (ts : List Token) : Prop := ∀ t ∈ ts, Lexical t ∧ Steady t

theorem Firm.subset (h : Firm ts) (hs : us ⊆ ts) : Firm us := fun t ht ↦ h t (hs ht)

theorem Firm.neat (h : Firm ts) : ∀ t ∈ ts, Lexical t ∧ Neat t :=
  fun t ht ↦ ⟨(h t ht).1, (h t ht).2.neat⟩

theorem tallied_extend (hf : f.Tallied false) (ht : Firm ts) : (f.extend ts).Tallied false :=
  extend_induction hf fun _ t hm hb hf ↦
    hf.pushToken (ht t hm).1 (by simpa [Token.isBlank] using hb) (ht t hm).2.1

theorem endsIn_extend (hf : f.EndsIn p) (ht : Firm ts) : ∃ q, (f.extend ts).EndsIn q :=
  extend_induction (P := fun f ↦ ∃ q, f.EndsIn q) ⟨p, hf⟩ fun _ t hm hb ⟨_, hf⟩ ↦
    ⟨some t, hf.pushToken (ht t hm).1 (ht t hm).2.neat (by simpa [Token.isBlank] using hb)⟩

theorem isBlank_of_space : ∀ g ∈ [Token.space], g.isBlank = true :=
  List.forall_mem_singleton.2 isGap_space.isBlank

theorem isBlank_of_newLine {indent : Text} (hi : IsIndent indent) :
    ∀ g ∈ [newLine indent], g.isBlank = true :=
  List.forall_mem_singleton.2 hi.isGap.isBlank

/-- The tokens `ps` stand for the tokens `ts`, whatever follows both. -/
structure Lays (ts ps : List Token) : Prop where
  onward : ∀ {z vs us : List Token}, Onward z vs us → Onward z (ts ++ vs) (ps ++ us)

namespace Lays

variable {a b c : List Token} {u gap : Token}

theorem nil : Lays [] [] := ⟨id⟩

theorem append (ha : Lays a c) (hb : Lays ts us) : Lays (a ++ ts) (c ++ us) where
  onward h := by
    rw [List.append_assoc, List.append_assoc]
    exact ha.onward (hb.onward h)

theorem blanks {gs : List Token} (h : Lays ts us) (hg : ∀ g ∈ gs, g.isBlank = true) :
    Lays (gs ++ ts) us where
  onward hw := by
    obtain ⟨h₁, h₂, h₃⟩ := h.onward hw
    rw [List.append_assoc]
    exact ⟨h₁.blanks hg, h₂, (ahead_blanks hg _).trans h₃⟩

theorem skip {gs : List Token} (hg : ∀ g ∈ gs, g.isBlank = true) : Lays gs [] := by
  simpa using Lays.nil.blanks hg

theorem comma : Lays [comma] [comma] where
  onward h :=
    ⟨.keep rfl (by decide) (h.loose _) (fun e ↦ by cases e) h.relaid, sealed_comma _,
      (ahead_comma _).trans (ahead_comma _).symm⟩

theorem closing {e : Token} (he : e.isCloseParen = true) : Lays [e] [e] where
  onward h := (ending_closing he h.relaid (h.loose e)).onward

/-- A keyword is printed after a gap, in its own way. -/
theorem title (hl : Lexical t) (ht : t.isTitle = true) (hu : Lexed [u]) (hk : u.kind = t.kind)
    (hw : u.keyword = t.keyword) (hg : IsGap gap) : Lays [t] [gap, u] := by
  refine ⟨fun {z vs us} h ↦ ?_⟩
  obtain ⟨x, hx⟩ := hl
  have hf := Token.family_of_isTitle ht
  have hwt := hx.isWord_of_kind hf
  have hwu := hu.isWord_of_kind (hk ▸ hf)
  have hbt : t.isBlank = false := Token.isBlank_of_isTitle ht
  have hbu : u.isBlank = false := by rwa [Token.isBlank, hk, ← Token.isBlank]
  refine ⟨.gap hg (by simpa using hbu) (.rewrite ht hk hw hu h.sealed.1 (.inr h.words) h.relaid),
    sealed_gap hg _, ?_⟩
  rw [List.cons_append, List.cons_append, List.cons_append, ahead_blank hg.isBlank, ahead, ahead,
    tokenWords_word hbt hwt, tokenWords_word hbu hwu, leadingWords_of_keyword hx ht hu hk hw]
  exact phraseRest_append h.words

end Lays

/-- Tokens as an expression after a space, or nothing if they are white space alone. -/
def spell (ts : List Token) : List Token := if inked ts = [] then [] else Token.space :: woven {} ts

theorem spell_blank (h : inked ts = []) : spell ts = [] := if_pos h

theorem spell_ink (h : inked ts ≠ []) : spell ts = Token.space :: woven {} ts := if_neg h

theorem inked_spell (ts : List Token) : inked (spell ts) = inked ts := by
  by_cases h : inked ts = []
  · rw [spell_blank h, h, inked_nil]
  · rw [spell_ink h, inked_cons_blank rfl, inked_woven]

theorem textOf_spell (ts : List Token) :
    textOf (spell ts) = (itemOf? ts).toList.flatMap (' ' :: ·) := by
  by_cases h : inked ts = []
  · simp [spell_blank h, itemOf?, h]
  · have ht : (written ts).text = textOf (woven {} ts) := text_extend {} ts
    simp [spell_ink h, itemOf?, h, ht, Token.space]

theorem inked_flatMap_spell (rs : List (List Token)) :
    inked (rs.flatMap spell) = inked rs.flatten := by
  induction rs with
  | nil => rfl
  | cons r rs ih => rw [List.flatMap_cons, List.flatten_cons, inked_append, inked_append,
    inked_spell, ih]

theorem textOf_flatMap_spell (rs : List (List Token)) :
    textOf (rs.flatMap spell) = (rs.filterMap itemOf?).flatMap (' ' :: ·) := by
  induction rs with
  | nil => rfl
  | cons r rs ih =>
    rw [List.flatMap_cons, textOf_append, ih, textOf_spell, List.filterMap_cons]
    cases itemOf? r <;> simp

theorem isBlank_of_inked (h : inked ts = []) : ∀ t ∈ ts, t.isBlank = true := by
  simpa [inked] using h

/-- Tokens that an expression is put together of. -/
structure Material (ts : List Token) : Prop where
  firm : Firm ts
  apart : PointsApart none ts

theorem Material.left {a b : List Token} (h : Material (a ++ b)) : Material a :=
  ⟨h.firm.subset (List.subset_append_left a b), h.apart.left⟩

theorem Material.right {a b : List Token} (h : Material (a ++ b)) : Material b :=
  ⟨h.firm.subset (List.subset_append_right a b), h.apart.right⟩

theorem Material.tail (h : Material (t :: ts)) : Material ts := Material.right (a := [t]) h

theorem Material.of_flatten {rs : List (List Token)} (h : Material rs.flatten) :
    ∀ r ∈ rs, Material r := by
  induction rs with
  | nil => exact nofun
  | cons r rs ih =>
    rw [List.flatten_cons] at h
    exact List.forall_mem_cons.2 ⟨h.left, ih h.right⟩

theorem Lays.spell (h : Material ts) : Lays ts (QueryTemplate.spell ts) := by
  refine ⟨fun {z vs us} ho ↦ ?_⟩
  by_cases hi : inked ts = []
  · rw [spell_blank hi]
    exact (Lays.skip (isBlank_of_inked hi)).onward ho
  · rw [spell_ink hi]
    obtain ⟨h₁, h₂, -⟩ := ho.weave endsIn_empty h.firm.neat h.apart
    obtain ⟨t, r, hw, hb⟩ := exists_woven (f := {}) rfl hi
    rw [hw] at h₁ h₂ ⊢
    exact ⟨.gap isGap_space (by simpa using hb) h₁, sealed_gap isGap_space _,
      h₂.trans (ahead_blank isGap_space.isBlank _).symm⟩

theorem Lays.spells {rs : List (List Token)} (h : ∀ r ∈ rs, Material r) :
    Lays rs.flatten (rs.flatMap QueryTemplate.spell) := by
  induction rs with
  | nil => exact Lays.nil
  | cons r rs ih =>
    obtain ⟨hr, h⟩ := List.forall_mem_cons.1 h
    rw [List.flatten_cons, List.flatMap_cons]
    exact Lays.append (Lays.spell hr) (ih h)

end QueryTemplate
