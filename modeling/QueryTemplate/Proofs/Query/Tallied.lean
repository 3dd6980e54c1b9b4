import QueryTemplate.Proofs.Token.Weight
import QueryTemplate.Proofs.Query.Layout
namespace QueryTemplate

open Token Grammar

namespace Fragment

variable {lines : Bool} {f : Fragment} {t : Token} {s x y : Text} {n m : Int} {b : Bool}

/-- The depth of an expression is the tally of its text. -/
structure Tallied (lines : Bool) (f : Fragment) : Prop where
  text : tally lines f.text = some (f.depth, false)
  stop : f.lineComment = false → tally lines (Text.trimEnd f.text) = some (f.depth, false)

theorem tallied_empty : Tallied lines {} := ⟨tally_nil, fun _ ↦ tally_nil⟩

theorem delimited_append (h : Delimited x) (hx : x ≠ []) (y : Text) : Delimited (x ++ y) := by
  rwa [Delimited, List.head?_append, List.head?_eq_some_head hx, Option.some_or,
    ← List.head?_eq_some_head hx]

theorem seam_of_needsSpace (ht : Lexical t) (h : needsSpace s t = false) :
    s = [] ∨ Seam s t.text := by
  rcases needsSpace_cases h with h | ⟨c, hc, h⟩ | h | h | h | h | h
  · exact .inl h
  · refine .inr (.inr ⟨c, hc, h.imp_right fun h ↦ ?_⟩)
    rcases h with rfl | rfl | rfl | rfl <;> decide
  · rcases ht.closing h with e | e <;> exact .inr (.inl (by rw [e]; simp [Delimited]; decide))
  · exact .inr (.inl (by rw [h]; simp [Delimited]; decide))
  · exact .inr (.inl (by rw [h]; simp [Delimited]; decide))
  · exact .inr (.inl (by rw [Delimited, h]; simp; decide))
  · rcases ht.opening h with e | e <;> exact .inr (.inl (by rw [e]; simp [Delimited]; decide))

/-- The tally of two texts of which the second starts with a delimiter. -/
theorem tally_add (hx : tally lines x = some (m, false)) (hy : tally lines y = some (n, b))
    (hs : x = [] ∨ Seam x y) :
    tally lines (x ++ y) = some (m + n, b) := by
  rcases hs with rfl | hs
  · rw [tally_nil] at hx
    obtain ⟨rfl, -⟩ := Prod.mk.inj (Option.some.inj hx)
    rw [List.nil_append, hy, Int.zero_add]
  · rw [tally_append hx hs, hy]
    rfl

theorem tally_space (hx : tally lines x = some (m, false)) :
    tally lines (x ++ [' ']) = some (m, false) := by
  have := tally_add hx (y := [' ']) (n := 0)
    (b := false) (by rw [tally_loose (by decide), tally_nil])
    (.inr (.inl (by simp [Delimited]; decide)))
  rwa [Int.add_zero] at this

theorem Tallied.pushToken (h : f.Tallied lines) (ht : Lexical t) (hb : t.kind ≠ .blank)
    (hc : t.kind ≠ .comment) :
    (f.pushToken t).Tallied lines := by
  have htext : tally lines (f.pushToken t).text = some (f.depth + t.weight, false) := by
    rw [Fragment.pushToken]
    split
    · refine tally_add (tally_space h.text) (tally_lexical ht (not_isLineComment hc))
        (.inr (.inr ⟨' ', ?_, .inl rfl⟩))
      simp
    · rw [List.append_nil]
      exact tally_add h.text (tally_lexical ht (not_isLineComment hc))
        (seam_of_needsSpace ht (Bool.eq_false_iff.2 ‹_›))
  have hdepth : (f.pushToken t).depth = f.depth + t.weight := by
    rw [Fragment.pushToken, weight]
    by_cases ho : t.isOpenParen = true
    · simp [ho]
    · by_cases hcl : t.isCloseParen = true
      · simp [ho, hcl]
        omega
      · simp [ho, hcl]
  have htrim : Text.trimEnd (f.pushToken t).text = (f.pushToken t).text := by
    rw [Fragment.pushToken, trimEnd_append (ink_of_lexical ht hb), (ht.solid hb hc).trimEnd]
  exact ⟨hdepth ▸ htext, fun _ ↦ by rw [htrim, htext, hdepth]⟩

theorem Tallied.pushComment (h : f.Tallied lines) (ht : Lexical t) (hc : t.kind = .comment)
    (hl : lines = false → t.isLineComment = false) : (f.pushComment t).Tallied lines := by
  obtain ⟨base, hbase, htally, hseam⟩ : ∃ base, (f.pushComment t).text =
    base ++ (t.text ++ ['\n']) ∧
      tally lines base = some (f.depth, false) ∧ ∀ y, base = [] ∨ Seam base y := by
    rw [Fragment.pushComment]
    split
    · refine ⟨f.text ++ [' '], List.append_assoc .., tally_space h.text,
        fun y ↦ .inr (.inr ⟨' ', by simp, .inl rfl⟩)⟩
    · rename_i hs
      refine ⟨f.text, by simp, h.text, fun y ↦ ?_⟩
      cases hl : f.text.getLast? with
      | none => exact .inl (List.getLast?_eq_none_iff.1 hl)
      | some c =>
        rw [hl, Option.any_some] at hs
        exact .inr (.inr ⟨c, hl, .inl (by simpa using hs)⟩)
  have htok : tally lines (t.text ++ ['\n']) = some (0, false) :=
    (tally_comment ht hc hl []).trans tally_nil
  refine ⟨?_, fun hline ↦ ?_⟩
  · have := tally_add htally htok (hseam _)
    rw [hbase, this]
    exact congrArg some (Prod.ext (Int.add_zero _) rfl)
  · have hline : t.isLineComment = false := hline
    have htrim : Text.trimEnd (f.pushComment t).text = base ++ t.text := by
      obtain ⟨v, hv⟩ : ∃ v : Text, t.text = v ++ ['/'] := by
        obtain ⟨k, u⟩ := t
        obtain rfl : k = .comment := hc
        obtain ⟨ts, h⟩ := ht
        obtain ⟨v, rfl⟩ := text_of_comment (munch_comment_iff.1 (munch_of_lexed h))
          (by simpa [isLineComment] using hline)
        exact ⟨'/' :: '*' :: v ++ ['*'], by simp⟩
      rw [hbase, ← List.append_assoc, trimEnd_append_spaces (by simp; decide), hv,
        ← List.append_assoc, trimEnd_append ⟨'/', by simp, rfl⟩]
      rfl
    have hw : t.weight = 0 := weight_of_kind (by simp [hc]) (by simp [hc])
    have := tally_add htally (tally_lexical ht hline) (hseam _)
    rw [htrim, this, hw]
    exact congrArg some (Prod.ext (Int.add_zero _) rfl)

theorem Tallied.pushText (h : f.Tallied lines) (hs : tally lines (s ++ ")") = some (0, false))
    (hd : Delimited s) (hne : s ≠ []) :
    (f.pushText (s ++ ")")).Tallied lines := by
  have htext : tally lines (f.pushText (s ++ ")")).text = some (f.depth, false) := by
    have := tally_add h.text hs (.inr (.inl (delimited_append hd hne _)))
    rwa [Int.add_zero] at this
  refine ⟨htext, fun _ ↦ ?_⟩
  have htrim : Text.trimEnd (f.pushText (s ++ ")")).text = (f.pushText (s ++ ")")).text := by
    rw [Fragment.pushText, ← List.append_assoc, trimEnd_append ⟨')', by simp, rfl⟩]
    rfl
  rw [htrim]
  exact htext

/-- The text that is taken of an expression has its depth as tally. -/
theorem Tallied.take? (h : f.Tallied lines) (hx : f.take? = some x) :
    tally lines x = some (f.depth, false) := by
  rw [Fragment.take?] at hx
  split at hx
  · cases hx
  · obtain rfl := Option.some.inj hx
    split
    · obtain ⟨b, hb⟩ := tally_trim h.text
      rw [tally_newline hb, tally_nil]
      exact congrArg some (Prod.ext (Int.add_zero _) rfl)
    · exact tally_trimStart (h.stop (Bool.eq_false_iff.2 ‹_›))

theorem Tallied.take?_none (h : f.Tallied lines) (hx : f.take? = none) : f.depth = 0 := by
  rw [Fragment.take?] at hx
  split at hx
  · rename_i e
    obtain ⟨b, hb⟩ := tally_trim h.text
    rw [e, tally_nil] at hb
    exact (Prod.mk.inj (Option.some.inj hb)).1.symm
  · cases hx

end Fragment
end QueryTemplate
