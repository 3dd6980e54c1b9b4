import QueryTemplate.Proofs.Filter.Addition
import QueryTemplate.Proofs.Filter.Mention
import QueryTemplate.Proofs.Token.Exchange
import QueryTemplate.Proofs.Query.Arguments
import QueryTemplate.Proofs.Join.Reader
import QueryTemplate.Proofs.Query.TableName
namespace QueryTemplate

open Token Grammar Recognizer

variable {p t u : Token} {a b b' ts us : List Token} {bs : List (List Token)}

/-- What is read before a keyword is read before another one in its place: no token takes a part of either. -/
theorem Lexed.exchange_keyword (h : Lexed (a ++ t :: b)) (hb : Lexed (u :: b')) (ht : t.kind = .clause)
    (hu : u.kind = .clause) (hn : Text.Stops isNumeric t.text) (hn' : Text.Stops isNumeric u.text)
    (hc : SlashFree (a ++ u :: b')) : Lexed (a ++ u :: b') := by
  have htb := h.suffix
  have hstart : ∀ {v : Token} {vs : List Token}, Lexed (v :: vs) → v.kind = .clause →
      (textOf (v :: vs)).head?.any startsWord = true := fun {v vs} hv hk ↦ by
    rw [textOf_cons, hv.head_append]
    exact hv.isWord_of_kind (by rw [hk]; rfl)
  have hnum : ∀ {v : Token} {vs : List Token}, Lexed (v :: vs) → Text.Stops isNumeric v.text →
      (textOf (v :: vs)).takeWhile isNumeric = [] := fun {v vs} hv hs ↦
    Text.takeWhile_of_stops (stops_congr (by rw [textOf_cons, hv.head_append]) hs)
  have hwords : ahead (t :: b) = ahead (u :: b') := by rw [htb.ahead_clause ht, hb.ahead_clause hu]
  have hnums := (hnum htb hn).trans (hnum hb hn').symm
  suffices hL : Lexed (a ++ u :: b') ∧ (a = [] ∨ SameStart (a ++ t :: b) (a ++ u :: b')) from hL.1
  induction a with
  | nil => exact ⟨hb, .inl rfl⟩
  | cons x a ih =>
    obtain ⟨hl, hs⟩ := ih h.tail hc.2
    rcases hs with rfl | hs
    · refine ⟨?_, .inr (sameStart_cons h.text_ne_nil hwords hnums)⟩
      have hx : x.isWord = false := by
        cases hw : x.isWord with
        | false => rfl
        | true =>
          obtain ⟨c, hc, hcw⟩ := (Option.any_eq_true _ _).1 (hstart htb ht)
          have := h.stops_word hw c hc
          rw [isNameChar_of_startsWord hcw] at this
          cases this
      by_cases hk : x.kind = .number
      · refine h.exchange hl ⟨fun hw ↦ ?_, fun _ ↦ .inl hnums, fun _ hk' ↦ absurd hk hk'⟩ hc
        rw [hx] at hw
        cases hw
      · exact lexed_cons.2 ⟨h.readBefore.letter (hstart htb ht) (hstart hb hu) hx hk, hl⟩
    · exact ⟨h.exchange hl (.of_sameStart h hs) hc, .inr (hs.cons h.text_ne_nil)⟩

/-- `UNION ALL` as it is written between statements. -/
def unionWord : Token := ⟨.clause, "UNION ALL"⟩

/-- Statements in a row with `UNION ALL` between neighbours. -/
def unite : List (List Token) → List Token
  | [] => []
  | [ts] => ts
  | ts :: us :: bs => ts ++ unionWord :: unite (us :: bs)

theorem unite_cons (hne : bs ≠ []) : unite (ts :: bs) = ts ++ unionWord :: unite bs := by
  obtain ⟨us, bs, rfl⟩ := List.exists_cons_of_ne_nil hne
  rfl

theorem textOf_unite (bs : List (List Token)) : textOf (unite bs) = Text.join "UNION ALL" (bs.map textOf) := by
  induction bs with
  | nil => rfl
  | cons ts bs ih =>
    cases bs with
    | nil => rfl
    | cons us bs =>
      rw [unite_cons (by simp), textOf_append, textOf_cons, ih, ← List.append_assoc]
      rfl

/-- Where statements were united they are cut apart. -/
theorem splitOutside_unite (hne : bs ≠ []) (h : ∀ b ∈ bs, Balanced b ∧ Covered isUnionAll 0 b) :
    splitOutside isUnionAll (unite bs) = bs ∧ Balanced (unite bs) := by
  induction bs with
  | nil => exact absurd rfl hne
  | cons ts bs ih =>
    obtain ⟨⟨hb, hc⟩, hbs⟩ := List.forall_mem_cons.1 h
    cases bs with
    | nil => exact ⟨splitOutside_of_covered hc, hb⟩
    | cons us bs =>
      obtain ⟨h₁, h₂⟩ := ih (by simp) hbs
      rw [unite_cons (by simp)]
      refine ⟨?_, ?_⟩
      · rw [splitOutside_append hc (depthAfter_of_depthRun hb), splitOutside_cons_heading rfl rfl rfl, h₁]
        simp
      · rw [Balanced, depthRun_append, hb]
        exact h₂

/-- A filter is added to a statement in one place. -/
theorem inked_withFilter (hp : p.isBlank = false) (ts : List Token) :
    ∃ a b xs, inked ts = a ++ b ∧ inked (withFilter p ts) = a ++ (xs ++ b) ∧
      (xs = [p, Token.and] ∨ xs = [whereWord, p]) := by
  have hadded : ∀ b, inked (added p b) = [whereWord, p] ++ inked b := fun b ↦ by
    rw [added, inked_cons_blank rfl, inked_cons rfl, inked_cons_blank rfl, inked_cons hp]
    rfl
  rcases withFilter_cases p ts with ⟨a, w, b, hcut, e⟩ | ⟨-, ⟨a, t, b, hcut, e⟩ | ⟨-, e⟩⟩
  · obtain ⟨rfl, -⟩ := cutOutside_eq_some_iff.1 hcut
    refine ⟨inked (a ++ [w]), inked b, [p, Token.and], by simp [← inked_append], ?_, .inl rfl⟩
    have hguard : guarded [p] b = space :: p :: space :: Token.and :: b := by simp [guarded, withSpace, hp]
    rw [e, List.append_cons, inked_append, hguard, inked_cons_blank rfl, inked_cons hp, inked_cons_blank rfl,
      inked_cons rfl]
    rfl
  · obtain ⟨rfl, -⟩ := cutOutside_eq_some_iff.1 hcut
    refine ⟨inked a, inked (t :: b), [whereWord, p], by rw [inked_append], ?_, .inr rfl⟩
    rw [e, inked_append, inked_trimmed, hadded, inked_cons_blank rfl]
  · refine ⟨inked ts, [], [whereWord, p], by simp, ?_, .inr rfl⟩
    rw [e, inked_append, inked_trimmed, hadded, inked_blankEnd]

/-- A filter leaves the parentheses and the statements of a text as they are. -/
theorem IsFilter.balanced_withFilter (hp : IsFilter p) (hb : Balanced ts) (hc : Covered isUnionAll 0 ts) :
    Balanced (withFilter p ts) ∧ Covered isUnionAll 0 (withFilter p ts) := by
  have hu : ∀ t, isUnionAll t = true → t.isBlank = false := fun _ ↦ isBlank_of_isUnionAll
  obtain ⟨a, b, xs, h₁, h₂, hxs⟩ := inked_withFilter hp.isBlank ts
  have hflat : ∀ t ∈ xs, t.isFlat = true ∧ isUnionAll t = false := by
    have hand : Token.and.isFlat = true ∧ isUnionAll Token.and = false := by decide
    have hwhere : whereWord.isFlat = true ∧ isUnionAll whereWord = false := by decide
    have hfilter : p.isFlat = true ∧ isUnionAll p = false := by
      have hunion : isUnionAll p = false := by
        simp only [isUnionAll, isClause, hp.kind, reduceCtorEq, decide_false, Bool.false_and]
      exact ⟨by simp [isFlat, isOrdinary, hp.kind, hunion], hunion⟩
    rcases hxs with rfl | rfl
    · exact List.forall_mem_cons.2 ⟨hfilter, List.forall_mem_singleton.2 hand⟩
    · exact List.forall_mem_cons.2 ⟨hwhere, List.forall_mem_singleton.2 hfilter⟩
  have hx : ∀ d, depthRun d xs = some d := depthRun_of_flat fun t ht ↦ (hflat t ht).1
  rw [Balanced, ← depthRun_inked, h₁, depthRun_append] at hb
  rw [← covered_inked hu, h₁, covered_append] at hc
  rw [Balanced, ← depthRun_inked, ← covered_inked hu, h₂, depthRun_append, covered_append, covered_append]
  obtain ⟨n, hn, hb⟩ := Option.bind_eq_some_iff.1 hb
  rw [hn, Option.bind_some, depthRun_append, hx, Option.bind_some, depthAfter_of_depthRun (hx _)]
  exact ⟨hb, hc.1, covered_of_forall fun t ht ↦ (hflat t ht).2, hc.2⟩

/-- Where a text with a filter differs from the text without. -/
theorem textOf_withFilter (p : Token) (ts : List Token) : ∃ x k g z, textOf ts = x ++ (g ++ z) ∧
    textOf (withFilter p ts) = x ++ ' ' :: (k ++ z) ∧
      (k = p.text ++ " AND" ∨ k = "WHERE " ++ p.text ∨ k = "WHERE " ++ p.text ++ " ") := by
  rcases withFilter_cases p ts with ⟨a, w, b, hcut, e⟩ | ⟨-, ⟨a, t, b, hcut, e⟩ | ⟨-, e⟩⟩
  · obtain ⟨rfl, -⟩ := cutOutside_eq_some_iff.1 hcut
    refine ⟨textOf (a ++ [w]), _, [], textOf b, by simp, ?_, .inl rfl⟩
    rw [e, textOf_append, textOf_cons, textOf_guarded]
    simp
  · obtain ⟨rfl, -⟩ := cutOutside_eq_some_iff.1 hcut
    refine ⟨textOf (trimmed a), _, textOf (blankEnd a), textOf (t :: b), ?_, ?_, .inr (.inr rfl)⟩
    · rw [← List.append_assoc, ← textOf_append, trimmed_append_blankEnd, textOf_append]
    · rw [e, textOf_append, textOf_added]
      simp [space]
  · refine ⟨textOf (trimmed ts), _, [], textOf (blankEnd ts), ?_, ?_, .inr (.inl rfl)⟩
    · rw [List.nil_append, ← textOf_append, trimmed_append_blankEnd]
    · rw [e, textOf_append, textOf_added]
      rfl

theorem head_withFilter (p : Token) (ts : List Token) : ∃ c, (textOf (withFilter p ts)).head? = some c ∧
    (c = ' ' ∨ (textOf ts).head? = some c) := by
  obtain ⟨x, k, g, z, h, h', -⟩ := textOf_withFilter p ts
  rw [h, h']
  cases x with
  | nil => exact ⟨' ', rfl, .inl rfl⟩
  | cons c x => exact ⟨c, rfl, .inr rfl⟩

/-- A filter ends no comment. -/
theorem IsFilter.commentEnd_withFilter (hp : IsFilter p) (h : commentEnd (textOf ts) = none) :
    commentEnd (textOf (withFilter p ts)) = none := by
  obtain ⟨x, k, g, z, e, e', hk⟩ := textOf_withFilter p ts
  rw [e] at h
  have hz : commentEnd z = none := commentEnd_of_append (commentEnd_of_append h)
  have hlast : p.text.getLast? ≠ some '*' := fun hl ↦ by
    have := hp.lexical.endsKind (by simp [hp.kind]) (by simp [hp.kind]) '*' hl
    rw [hp.kind] at this
    cases this
  have hwhere : commentEnd ("WHERE " ++ p.text) = none := by
    refine commentEnd_append rfl hp.closed fun _ ↦ by decide
  have hne := hp.lexical.text_ne_nil
  have hk : commentEnd k = none ∧ k.getLast? ≠ some '*' := by
    rcases hk with rfl | rfl | rfl
    · exact ⟨commentEnd_append hp.closed rfl nofun, by simp⟩
    · refine ⟨hwhere, ?_⟩
      rwa [List.getLast?_append_of_ne_nil _ hne]
    · exact ⟨commentEnd_append hwhere rfl nofun, by rw [List.getLast?_append_of_ne_nil _ (by decide)]; decide⟩
  rw [e']
  refine commentEnd_append (commentEnd_left h) ?_ fun h ↦ by cases h
  exact commentEnd_append (u := [' ']) rfl (commentEnd_append hk.1 hz fun _ ↦ hk.2) fun _ ↦ by decide

/-- The statements `bs` stand in the tokens with `UNION ALL` between neighbours. -/
inductive Unites : List Token → List (List Token) → Prop
  | last {ts : List Token} (hc : Covered isUnionAll 0 ts) : Unites ts [ts]
  | cons {t : Token} {a b : List Token} {bs : List (List Token)} (hc : Covered isUnionAll 0 a)
    (ht : isUnionAll t = true) (h : Unites b bs) : Unites (a ++ t :: b) (a :: bs)

theorem unites_splitOutside (ts : List Token) : Unites ts (splitOutside isUnionAll ts) := by
  have hu : ∀ t, isUnionAll t = true → after 0 t = 0 := fun t ht ↦ by
    simp [after, isOpenParen, (kind_of_isUnionAll t ht).1]
  induction hn : ts.length using Nat.strongRecOn generalizing ts with
  | ind n ih =>
    rcases splitOutside_eq_or hu ts with hc | ⟨a, t, b, rfl, ht, hc, -, hs⟩
    · rw [splitOutside_of_covered hc]
      exact .last hc
    · rw [List.length_append, List.length_cons] at hn
      rw [hs]
      exact .cons hc ht (ih b.length (by omega) b rfl)

theorem union_words (h : Lexed (t :: ts)) (ht : isUnionAll t = true) :
    t.isWord = true ∧ leadingWords t.text = ["union".toList, "all".toList] := by
  simp only [isUnionAll, isClause, Bool.and_eq_true, decide_eq_true_eq] at ht
  have hw := h.isWord_of_kind (by rw [ht.1]; rfl)
  refine ⟨hw, ?_⟩
  have hk : ∀ p ∈ ["with".toList] :: clausePhrases, Text.join [' '] p = "union all".toList →
      p = ["union".toList, "all".toList] := by decide
  exact hk _ (h.clause_words ht.1) (h.keyword_eq hw ▸ ht.2)

theorem stops_isNumeric_union (h : Lexed (t :: ts)) (ht : isUnionAll t = true) : Text.Stops isNumeric t.text := by
  obtain ⟨us, hus⟩ := leadingWords_eq_cons t.text
  rw [(union_words h ht).2] at hus
  intro c hc
  have hname : Text.lower (t.text.takeWhile Text.isNameChar) = "union".toList := (List.cons.inj hus).1.symm
  obtain ⟨x, hx⟩ := List.head?_eq_some_iff.1 hc
  rw [hx, List.takeWhile_cons] at hname
  split at hname
  · have hlow : c.toLower = 'u' := (List.cons.inj hname).1
    cases hn : isNumeric c with
    | false => rfl
    | true =>
      have := isNumeric_toLower hn
      rw [hlow] at this
      cases this
  · cases hname

/-- Only a name that goes on would change how a fixed phrase is read. -/
theorem Token.ReadBefore.fixed {r r' : Text} (h : t.ReadBefore r) (hw : t.isWord = true)
    (hf : leadingWords t.text ∈ fixedPhrases) (hr : Text.Stops Text.isNameChar r') : t.ReadBefore r' :=
  munch_word_congr hw h hr (classify_fixed hf _ _)

theorem lexed_unionWord : Lexed [unionWord] := by decide +kernel

theorem isUnionAll_unionWord : isUnionAll unionWord = true := by decide

/-- `UNION ALL` ends where no name goes on. -/
theorem unionWord_readBefore {r : Text} (h : Text.Stops Text.isNameChar r) : unionWord.ReadBefore r := by
  have hw := union_words lexed_unionWord isUnionAll_unionWord
  have hf : leadingWords unionWord.text ∈ fixedPhrases := by
    rw [hw.2]
    decide
  exact lexed_unionWord.readBefore.fixed hw.1 hf h

namespace Unites

theorem ne_nil (h : Unites ts bs) : bs ≠ [] := by
  cases h <;> simp

theorem head_unite (h : Unites ts bs) (p : Token) : ∃ c, (textOf (unite (bs.map (withFilter p)))).head? = some c ∧
    (c = ' ' ∨ (textOf ts).head? = some c) := by
  cases h with
  | last => exact head_withFilter p ts
  | @cons t a b bs hc ht h =>
    obtain ⟨c, hc, ha⟩ := head_withFilter p a
    refine ⟨c, ?_, ha.imp_right fun ha ↦ ?_⟩
    · rw [List.map_cons, unite_cons (by simpa using h.ne_nil), textOf_append, List.head?_append, hc]
      rfl
    · rw [textOf_append, List.head?_append, ha]
      rfl

theorem commentEnd_unite (h : Unites ts bs) (hp : IsFilter p) (hc : commentEnd (textOf ts) = none) :
    commentEnd (textOf (unite (bs.map (withFilter p)))) = none := by
  induction h with
  | last => exact hp.commentEnd_withFilter hc
  | @cons t a b bs hcov ht h ih =>
    rw [textOf_append, textOf_cons] at hc
    have hb := ih (commentEnd_of_append (commentEnd_of_append hc))
    rw [List.map_cons, unite_cons (by simpa using h.ne_nil), textOf_append, textOf_cons]
    refine commentEnd_append (hp.commentEnd_withFilter (commentEnd_left hc)) ?_ fun h ↦ by cases h
    exact commentEnd_append rfl hb fun _ ↦ by decide

theorem commentEnd_unite_append {e : Token} (h : Unites ts bs) (he : e.isCloseParen = true) (hp : IsFilter p)
    (hc : commentEnd (textOf (ts ++ e :: us)) = none) :
    commentEnd (textOf (unite (bs.map (withFilter p)) ++ e :: us)) = none := by
  rw [textOf_append] at hc ⊢
  refine commentEnd_append (h.commentEnd_unite hp (commentEnd_left hc)) (commentEnd_of_append hc) fun hs ↦ ?_
  rw [textOf_cons, (isBlank_of_isCloseParen he).2.1] at hs
  cases hs

/-- No name goes on behind a `UNION ALL` after the statements were filtered. -/
theorem stops_unite (h : Unites b bs) (hl : Lexed (t :: (b ++ ts))) (ht : isUnionAll t = true) (p : Token)
    (us : List Token) : Text.Stops Text.isNameChar (textOf (unite (bs.map (withFilter p)) ++ us)) := by
  obtain ⟨c, hc, hb⟩ := h.head_unite p
  intro d hd
  rw [textOf_append, List.head?_append, hc] at hd
  obtain rfl : c = d := Option.some.inj hd
  rcases hb with rfl | hb
  · rfl
  · refine hl.stops_word (union_words hl ht).1 c ?_
    rw [textOf_append, List.head?_append, hb]
    rfl

/-- Filtered statements are read one by one, each but the last being set off from the `UNION ALL` behind it. -/
theorem lexed_unite {e : Token} (h : Unites ts bs) (hl : Lexed (ts ++ e :: us)) (he : e.isCloseParen = true)
    (hc : ∀ t ∈ ts, t.kind ≠ .comment) (hp : IsFilter p) (hs : ∀ b ∈ bs.dropLast, Seamed b) :
    Lexed (unite (bs.map (withFilter p)) ++ e :: us) := by
  induction h with
  | last =>
    refine hl.withFilter_append (hl.left (.inl he)) hc hp (.inr ?_)
    rw [textOf_cons]
    exact (Fenced.of_isCloseParen he _).sealed
  | @cons t a b bs hcov ht h ih =>
    rw [List.dropLast_cons_of_ne_nil h.ne_nil] at hs
    obtain ⟨ha, hs⟩ := List.forall_mem_cons.1 hs
    obtain ⟨hca, hcb⟩ := List.forall_mem_append.1 hc
    rw [List.append_assoc, List.cons_append] at hl
    have hb := ih hl.suffix.tail (List.forall_mem_cons.1 hcb).2 hs
    have hu : Lexed (unionWord :: (unite (bs.map (withFilter p)) ++ e :: us)) :=
      lexed_cons.2 ⟨unionWord_readBefore (h.stops_unite hl.suffix ht p _), hb⟩
    have hk : t.kind = .clause := by
      simp only [isUnionAll, isClause, Bool.and_eq_true, decide_eq_true_eq] at ht
      exact ht.1
    have hexchange : Lexed (a ++ unionWord :: (unite (bs.map (withFilter p)) ++ e :: us)) := by
      refine hl.exchange_keyword hu hk rfl (stops_isNumeric_union hl.suffix ht)
        (stops_isNumeric_union hu isUnionAll_unionWord) (hl.slashFree.exchange hu.slashFree ?_ fun hn ↦ ?_)
      · rintro c ⟨⟩
        decide
      · rw [textOf_cons] at hn
        exact commentEnd_append rfl (h.commentEnd_unite_append he hp (commentEnd_of_append hn)) fun _ ↦ by decide
    rw [List.map_cons, unite_cons (by simpa using h.ne_nil), List.append_assoc, List.cons_append]
    exact hexchange.withFilter_append (hl.left_of_clause hk) hca hp (.inl ha)

end Unites

/-- Texts with the same characters but for white space are one text, where no white space follows either. -/
theorem eq_of_filter_isSpace {x x' y y' : Text} (h : x ++ y = x' ++ y')
    (hk : x.filter (!Text.isSpace ·) = x'.filter (!Text.isSpace ·)) (hy : Text.Stops Text.isSpace y)
    (hy' : Text.Stops Text.isSpace y') : x = x' := by
  have hnil : ∀ {w v : Text}, w.filter (!Text.isSpace ·) = [] → Text.Stops Text.isSpace (w ++ v) → w = [] := by
    intro w v hw hs
    cases w with
    | nil => rfl
    | cons c w =>
      have hc := List.filter_eq_nil_iff.1 hw c List.mem_cons_self
      rw [hs c rfl] at hc
      exact absurd rfl hc
  rcases List.append_eq_append_iff.1 h with ⟨w, rfl, rfl⟩ | ⟨w, rfl, rfl⟩
  · rw [List.filter_append, List.self_eq_append_right] at hk
    rw [hnil hk hy, List.append_nil]
  · rw [List.filter_append, List.append_right_eq_self] at hk
    rw [hnil hk hy', List.append_nil]

theorem filter_isSpace_inked (h : ∀ t ∈ ts, Lexical t) :
    (textOf (inked ts)).filter (!Text.isSpace ·) = (textOf ts).filter (!Text.isSpace ·) := by
  induction ts with
  | nil => rfl
  | cons t ts ih =>
    obtain ⟨ht, hts⟩ := List.forall_mem_cons.1 h
    rw [textOf_cons, List.filter_append, ← ih hts]
    cases hb : t.isBlank with
    | true =>
      have hspace : t.text.filter (!Text.isSpace ·) = [] := by
        refine List.filter_eq_nil_iff.2 fun c hc ↦ ?_
        have := ht.blank (by simpa [Token.isBlank] using hb) c hc
        simp [Text.isSpace_of_isBlank this]
      rw [inked_cons_blank hb, hspace, List.nil_append]
    | false => rw [inked_cons hb, textOf_cons, List.filter_append]

/-- Texts of the same tokens are alike up to where no white space follows. -/
theorem textOf_congr {x x' : List Token} {y y' : Text} (h : textOf x ++ y = textOf x' ++ y')
    (hi : inked x = inked x') (hx : ∀ t ∈ x, Lexical t) (hx' : ∀ t ∈ x', Lexical t)
    (hy : Text.Stops Text.isSpace y) (hy' : Text.Stops Text.isSpace y') : textOf x = textOf x' := by
  refine eq_of_filter_isSpace h ?_ hy hy'
  rw [← filter_isSpace_inked hx, hi, filter_isSpace_inked hx']

instance (ts : List Token) : Decidable (Seamed ts) := inferInstanceAs (Decidable (_ ∨ _))

/-- A filter that nothing keeps from what follows is the end of its statement. -/
theorem withFilter_of_not_seamed (h : ¬Seamed ts) (p : Token) : ∃ a, withFilter p ts = a ++ [p] := by
  rw [Seamed, not_or, not_or, not_not, not_not, not_not] at h
  obtain ⟨hw, ht, hb⟩ := h
  rw [withFilter, cutOutside_eq_none_iff.2 hw, cutOutside_eq_none_iff.2 ht, hb]
  exact ⟨trimmed ts ++ [space, whereWord, space], by simp [added]⟩

theorem IsFilter.stops_isSpace (hp : IsFilter p) (s : Text) : Text.Stops Text.isSpace (p.text ++ s) := by
  intro c hc
  rw [List.head?_append_of_ne_nil _ hp.lexical.text_ne_nil] at hc
  exact isSpace_of_startsKind (hp.lexical.startsKind c hc) (by simp [hp.kind])

theorem stops_isSpace_unionWord (s : Text) : Text.Stops Text.isSpace (unionWord.text ++ s) := by
  intro c hc
  obtain rfl : 'U' = c := Option.some.inj hc
  decide

/-- A statement whose filter is read right before `UNION ALL` is set off from it. -/
theorem seamed_of_read {x r : List Token} {s : Text} (hp : IsFilter p)
    (hd : ∀ s, p.ReadBefore s → Text.Stops isPlaceholderChar s) (hr : Lexed (x ++ r)) (hl : Lexed (withFilter p a))
    (hi : inked x = inked (withFilter p a))
    (e : textOf (x ++ r) = textOf (withFilter p a) ++ (unionWord.text ++ s)) : Seamed a := by
  by_contra hn
  obtain ⟨a', ha⟩ := withFilter_of_not_seamed hn p
  have hlast : inked [p] = [p] := inked_cons hp.isBlank []
  rw [ha, inked_append, hlast] at hi
  obtain ⟨x₀, x₁, rfl, h₀, h₁⟩ := List.filter_eq_append_iff.1 hi
  obtain ⟨gs, vs, rfl, hg, -, -⟩ := exists_of_inked_eq_cons h₁
  have hsplit : x₀ ++ (gs ++ p :: vs) ++ r = (x₀ ++ gs) ++ p :: (vs ++ r) := by simp
  rw [hsplit] at hr e
  rw [ha, textOf_append, textOf_append a', textOf_cons, List.append_assoc, textOf_cons, textOf_nil,
    List.append_nil] at e
  rw [ha] at hl
  have hgs : inked gs = [] := inked_blanks fun g h ↦ by simpa [Token.isBlank] using hg g h
  have hstart : inked (x₀ ++ gs) = inked a' := by
    rw [inked_append, hgs, List.append_nil]
    exact h₀
  have hsame := textOf_congr e hstart
    (fun t ht ↦ hr.lexical t (List.mem_append_left _ ht)) (fun t ht ↦ hl.lexical t (List.mem_append_left _ ht))
    (hp.stops_isSpace _) (hp.stops_isSpace _)
  rw [hsame] at e
  have hnext := List.append_cancel_left (List.append_cancel_left e)
  have := hd _ hr.suffix.readBefore
  rw [hnext] at this
  cases this 'U' rfl

namespace Unites

/-- The statements that are read one by one when they were filtered are set off from the `UNION ALL` behind
them. -/
theorem seamed_of_unite {parts : List (List Token)} (h : Unites ts bs) (hl : Lexed ts)
    (hc : ∀ t ∈ ts, t.kind ≠ .comment) (hp : IsFilter p)
    (hd : ∀ s, p.ReadBefore s → Text.Stops isPlaceholderChar s) (hus : Lexed us)
    (e : textOf us = textOf (unite (bs.map (withFilter p)))) (hparts : Unites us parts)
    (hsame : List.Forall₂ (fun x b ↦ inked x = inked (withFilter p b)) parts bs) :
    ∀ b ∈ bs.dropLast, Seamed b := by
  induction h generalizing us parts with
  | last => nofun
  | @cons t a b bs hcov ht h ih =>
    obtain ⟨x, xs, hx, hxs, rfl⟩ := List.forall₂_cons_right_iff.1 hsame
    cases hparts with
    | last =>
      cases hxs
      exact absurd rfl h.ne_nil
    | @cons u x v xs hcx hu hv =>
      have hk : ∀ {t : Token}, isUnionAll t = true → t.kind = .clause := fun ht ↦ by
        simp only [isUnionAll, isClause, Bool.and_eq_true, decide_eq_true_eq] at ht
        exact ht.1
      obtain ⟨hca, hcb⟩ := List.forall_mem_append.1 hc
      have hla := lexed_withFilter (hl.left_of_clause (hk ht)) hca hp
      rw [List.map_cons, unite_cons (by simpa using h.ne_nil), textOf_append, textOf_append, textOf_cons,
        textOf_cons] at e
      have hxa : textOf x = textOf (withFilter p a) := by
        refine textOf_congr e hx (fun t ht ↦ hus.lexical t (List.mem_append_left _ ht)) hla.lexical ?_
          (stops_isSpace_unionWord _)
        have := hus.suffix.stops_isSpace fun t ht ↦ Option.some.inj ht ▸ isBlank_of_isUnionAll hu
        rwa [textOf_cons] at this
      have ha : Seamed a := by
        refine seamed_of_read hp hd hus hla hx (s := textOf (unite (bs.map (withFilter p)))) ?_
        rw [textOf_append, textOf_cons, e]
      rw [hxa] at e
      have e := List.append_cancel_left e
      have hread := hus.suffix.readBefore
      have hunion : unionWord.ReadBefore (textOf (unite (bs.map (withFilter p)))) := by
        have hall : Lexed (t :: (b ++ [])) := by
          rw [List.append_nil]
          exact hl.suffix
        have hstops := h.stops_unite hall ht p []
        rw [List.append_nil] at hstops
        exact unionWord_readBefore hstops
      rw [ReadBefore, e, hunion] at hread
      have hrest := (Prod.mk.inj (Option.some.inj hread)).2
      rw [List.dropLast_cons_of_ne_nil h.ne_nil]
      exact List.forall_mem_cons.2
        ⟨ha, ih hl.suffix.tail (List.forall_mem_cons.1 hcb).2 hus.suffix.tail hrest.symm hv hxs⟩

end Unites

end QueryTemplate
