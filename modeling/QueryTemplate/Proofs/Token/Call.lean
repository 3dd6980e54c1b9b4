import QueryTemplate.Proofs.Join.Trailer
import QueryTemplate.Proofs.Query.Legible
import QueryTemplate.Proofs.Token.Exchange
namespace QueryTemplate

open Token Grammar

/-- Whether the token is the placeholder `name`. -/
def Token.isNamed (name : Text) (t : Token) : Bool := t.kind = .placeholder && t.text = name

section

variable {name s : Text} {a b hs us : List Token} {c : Call} {e : Token}

/-- The tokens `hs` of a text up to the parenthesis that opens its first call of `name`, before which the
tokens `a` stand. -/
structure CallHead (name : Text) (a hs : List Token) : Prop where
  others : ∀ t ∈ a, t.isNamed name = false
  call : ∃ n gs o, hs = a ++ n :: (gs ++ [o]) ∧ n.isNamed name = true ∧ (∀ t ∈ gs, t.isBlank = true) ∧
    o.isOpenParen = true

/-- A call that is found is the first one, and its parentheses enclose its arguments. -/
theorem tokens_of_findCall (h : findCall s name = .ok (some c)) :
    ∃ a hs b e us, (scan s).tokens = hs ++ (b ++ e :: us) ∧ CallHead name a hs ∧
      e.isCloseParen = true ∧ Balanced b ∧ c = ⟨textOf a, textOf b, textOf us ++ (scan s).rest⟩ := by
  have hother : (fun t : Token ↦ !(t.kind = .placeholder && t.text = name)) = fun t ↦ !t.isNamed name := rfl
  have hts := List.takeWhile_append_dropWhile (p := fun t : Token ↦ !t.isNamed name) (l := (scan s).tokens)
  simp only [findCall, hother] at h
  split at h
  · simp only [atEnd] at h
    split at h <;> cases h
  · rename_i n ts e
    have hgs := List.takeWhile_append_dropWhile (p := isBlank) (l := ts)
    split at h
    · simp only [atEnd] at h
      split at h <;> cases h
    · rename_i o inner e'
      split at h
      · rename_i ho
        cases hg : group (scan s).rest inner with
        | error => rw [hg] at h; cases h
        | ok p =>
          rw [hg] at h
          obtain rfl := Option.some.inj (Except.ok.inj h)
          obtain ⟨hb, u, hu, rfl⟩ := group_eq_ok hg
          rw [e, ← hgs, e'] at hts
          have hn : n.isNamed name = true := by
            have := List.head?_dropWhile_not (fun t : Token ↦ !t.isNamed name) (scan s).tokens
            simpa [e] using this
          refine ⟨_, _, p.1, u, p.2, ?_, ⟨fun t ht ↦ ?_, n, ts.takeWhile isBlank, o, rfl, hn,
            fun t ht ↦ List.mem_takeWhile_imp ht, ho⟩, hu, hb, rfl⟩
          · simpa using hts.symm
          · simpa using List.mem_takeWhile_imp ht
      · cases h

theorem findCall_of_tokens (hts : (scan s).tokens = hs ++ (b ++ e :: us)) (hh : CallHead name a hs)
    (he : e.isCloseParen = true) (hb : Balanced b) :
    findCall s name = .ok (some ⟨textOf a, textOf b, textOf us ++ (scan s).rest⟩) := by
  obtain ⟨hothers, n, gs, o, rfl, hn, hgs, ho⟩ := hh
  have hother : (fun t : Token ↦ !(t.kind = .placeholder && t.text = name)) = fun t ↦ !t.isNamed name := rfl
  have hpos : ∀ t ∈ a, (!t.isNamed name) = true := fun t ht ↦ by rw [hothers t ht]; rfl
  have hts : (scan s).tokens = a ++ n :: (gs ++ o :: (b ++ e :: us)) := by simp [hts]
  have htake : (scan s).tokens.takeWhile (fun t ↦ !t.isNamed name) = a := by
    rw [hts, List.takeWhile_append_of_pos hpos, List.takeWhile_cons, hn]
    exact List.append_nil a
  have hdrop : (scan s).tokens.dropWhile (fun t ↦ !t.isNamed name) = n :: (gs ++ o :: (b ++ e :: us)) := by
    rw [hts, List.dropWhile_append_of_pos hpos, List.dropWhile_cons, hn]
    rfl
  have hblanks : (gs ++ o :: (b ++ e :: us)).dropWhile isBlank = o :: (b ++ e :: us) := by
    rw [List.dropWhile_append_of_pos hgs, List.dropWhile_cons_of_neg]
    simp [(isBlank_of_isOpenParen ho).2.2.1]
  simp only [findCall, hother, htake, hdrop, hblanks, ho, if_true, group, closing?_append hb he]
  rfl

end

section

variable {name s w x opening : Text} {as bs : List Text} {a b h hs ts us ws y z : List Token}
  {xs ys zs : List (List Token)} {c : Call} {e : Token}

/-- Tokens that are cut at their commas are put together again with commas. -/
theorem eq_commaList (hx : splitOutside isComma ts = y :: ys) : ts = commaList y ys := by
  have ht := tokens_sections isComma 0 ts
  have hp := heading_of_mem_parts (p := isComma) (d := 0) ts
  rw [splitOutside, Sections.runs, List.cons.injEq] at hx
  obtain ⟨rfl, rfl⟩ := hx
  have hparts : ∀ q ∈ (sections isComma 0 ts).parts, q.1 :: q.2 = comma :: q.2 :=
    fun q hq ↦ by rw [eq_comma (hp q hq)]
  rw [commaList, List.flatMap_map, ← List.flatMap_congr hparts]
  exact ht.symm

/-- Commas stand after each piece before a piece, and before each piece after it. -/
theorem commaList_eq_append (hx : y :: ys = xs ++ z :: zs) :
    commaList y ys = xs.flatMap (· ++ [comma]) ++ commaList z zs := by
  induction xs generalizing y ys with
  | nil =>
    obtain ⟨rfl, rfl⟩ := List.cons.inj hx
    rfl
  | cons x xs ih =>
    obtain ⟨rfl, hys⟩ := List.cons.inj hx
    obtain ⟨v, vs, hv⟩ := List.exists_cons_of_ne_nil (l := xs ++ z :: zs) (by simp)
    obtain rfl : ys = v :: vs := hys.trans hv
    rw [commaList_cons, ih hv.symm]
    simp

theorem textOf_flatMap_comma (xs : List (List Token)) :
    textOf (xs.flatMap (· ++ [comma])) = (xs.map textOf).flatMap (· ++ [',']) := by
  have hcomma : comma.text = [','] := rfl
  induction xs with
  | nil => rfl
  | cons x xs ih => simp [ih, hcomma]

theorem textOf_flatMap_comma_cons (xs : List (List Token)) :
    textOf (xs.flatMap (comma :: ·)) = (xs.map textOf).flatMap (',' :: ·) := by
  have hcomma : comma.text = [','] := rfl
  induction xs with
  | nil => rfl
  | cons x xs ih => simp [ih, hcomma]

/-- Before an argument stands the parenthesis that opens a call or a comma. -/
theorem CallHead.exists_opener (hh : CallHead name a hs) (xs : List (List Token)) :
    ∃ h z, hs ++ xs.flatMap (· ++ [comma]) = h ++ [z] ∧ z.isOpener = true := by
  rcases List.eq_nil_or_concat xs with rfl | ⟨ys, y, rfl⟩
  · obtain ⟨n, gs, o, rfl, -, -, ho⟩ := hh.call
    exact ⟨a ++ n :: gs, o, by simp, by simp [isOpener, ho]⟩
  · exact ⟨hs ++ (ys.flatMap (· ++ [comma]) ++ y), comma, by simp, rfl⟩

/-- After an argument stands a comma or the parenthesis that closes a call. -/
theorem exists_closer (he : e.isCloseParen = true) (xs : List (List Token)) (us : List Token) :
    ∃ k vs, xs.flatMap (comma :: ·) ++ e :: us = k :: vs ∧ k.isCloser = true := by
  cases xs with
  | nil => exact ⟨e, us, rfl, by simp [isCloser, he]⟩
  | cons x xs => exact ⟨comma, _, rfl, rfl⟩

/-- The tokens `ws` can be an argument: parentheses are balanced, no comma stands outside of them, and
there is no comment and no slash before an asterisk. -/
structure IsArgument (ws : List Token) : Prop where
  balanced : Balanced ws
  covered : Covered isComma 0 ws
  uncommented : ∀ t ∈ ws, t.kind ≠ .comment
  opens : opensComment ws = false

/-- The arguments `as`, `x` and `bs` with commas between them. -/
def argumentList (as : List Text) (x : Text) (bs : List Text) : Text :=
  as.flatMap (· ++ [',']) ++ x ++ bs.flatMap (',' :: ·)

theorem textOf_arguments (xs : List (List Token)) (y : List Token) (zs : List (List Token)) :
    textOf (xs.flatMap (· ++ [comma]) ++ commaList y zs) =
      argumentList (xs.map textOf) (textOf y) (zs.map textOf) := by
  rw [commaList, textOf_append, textOf_append, textOf_flatMap_comma, textOf_flatMap_comma_cons, argumentList,
    List.append_assoc]

/-- The arguments of the first call of `name` in a text are made of the tokens `xs`, `y` and `zs`. The
tokens up to its parenthesis are `hs`, those before it `a` and those after it `us`. -/
structure ArgumentAt (name s : Text) (a hs : List Token) (xs : List (List Token)) (y : List Token)
    (zs : List (List Token)) (us : List Token) : Prop where
  head : CallHead name a hs
  tokens : ∃ e, e.isCloseParen = true ∧
    (scan s).tokens = hs ++ (xs.flatMap (· ++ [comma]) ++ commaList y zs ++ e :: us)
  pieces : ∀ q ∈ xs ++ y :: zs, Balanced q ∧ Covered isComma 0 q

theorem exists_argumentAt (hc : findCall s name = .ok (some c))
    (hx : splitText isComma c.args = .ok (as ++ x :: bs)) :
    ∃ a hs xs y zs us, ArgumentAt name s a hs xs y zs us ∧
      as = xs.map textOf ∧ x = textOf y ∧ bs = zs.map textOf := by
  obtain ⟨a, hs, b, e, us, hts, hh, he, hb, rfl⟩ := tokens_of_findCall hc
  have hl : Lexed b := by
    rw [← List.append_assoc] at hts
    exact (lexed_of_scan hts (.inl he)).suffix
  simp only [splitText, tokens?_eq_ok_iff.2 ⟨rfl, hl⟩, Except.map, Except.ok.injEq] at hx
  obtain ⟨xs, r, hp, rfl, hr⟩ := List.map_eq_append_iff.1 hx
  obtain ⟨y, zs, rfl, rfl, rfl⟩ := List.map_eq_cons_iff.1 hr
  have hpieces := balanced_of_mem_splitOutside (p := isComma) (fun t ht ↦ by simp [kind_of_isComma ht]) hb
  obtain ⟨v, vs, hv⟩ := List.exists_cons_of_ne_nil (l := xs ++ y :: zs) (by simp)
  have hbody : b = xs.flatMap (· ++ [comma]) ++ commaList y zs :=
    (eq_commaList (hp.trans hv)).trans (commaList_eq_append hv.symm)
  exact ⟨a, hs, xs, y, zs, us, ⟨hh, ⟨e, he, hbody ▸ hts⟩, hp ▸ hpieces⟩, rfl, rfl, rfl⟩

namespace ArgumentAt

variable {s' : Text}

theorem text (h : ArgumentAt name s a hs xs y zs us) :
    textOf hs ++ argumentList (xs.map textOf) (textOf y) (zs.map textOf) ++
      ')' :: (textOf us ++ (scan s).rest) = s := by
  obtain ⟨e, he, hts⟩ := h.tokens
  have hs := textOf_scan s
  rw [hts, textOf_append, textOf_append, textOf_arguments, textOf_cons, (isBlank_of_isCloseParen he).2.1] at hs
  simpa using hs

/-- The call is found with its arguments. -/
theorem findCall_eq (h : ArgumentAt name s a hs xs y zs us) :
    let args := argumentList (xs.map textOf) (textOf y) (zs.map textOf)
    findCall s name = .ok (some ⟨textOf a, args, textOf us ++ (scan s).rest⟩) ∧
      splitText isComma args = .ok (xs.map textOf ++ textOf y :: zs.map textOf) := by
  obtain ⟨e, he, hts⟩ := h.tokens
  obtain ⟨v, vs, hv⟩ := List.exists_cons_of_ne_nil (l := xs ++ y :: zs) (by simp)
  have hpieces := h.pieces
  have hargs := textOf_arguments xs y zs
  rw [← commaList_eq_append hv.symm] at hts hargs
  rw [hv] at hpieces
  refine ⟨?_, ?_⟩
  · rw [findCall_of_tokens hts h.head he (balanced_commaList fun q hq ↦ (hpieces q hq).1), hargs]
  · have hl : Lexed (commaList v vs) := by
      rw [← List.append_assoc] at hts
      exact (lexed_of_scan hts (.inl he)).suffix
    rw [splitText, tokens?_eq_ok_iff.2 ⟨hargs, hl⟩, Except.map, splitOutside_commaList hpieces, ← hv,
      List.map_append, List.map_cons]

/-- Another argument in place of one changes nothing around it, if it ends no comment that is opened
ahead of it. -/
theorem exchange (h : ArgumentAt name s a hs xs y zs us) (hl : Lexed ws) (hw : IsArgument ws)
    (ho : opensComment (scan (textOf (hs ++ xs.flatMap (· ++ [comma])))).tokens = true →
      commentEnd (textOf ws) = none)
    (hs' : s' = textOf hs ++ argumentList (xs.map textOf) (textOf ws) (zs.map textOf) ++
      ')' :: (textOf us ++ (scan s).rest)) :
    ArgumentAt name s' a hs xs ws zs us ∧ (scan s').rest = (scan s).rest := by
  obtain ⟨e, he, hts⟩ := h.tokens
  obtain ⟨b, z, hz, hopener⟩ := h.head.exists_opener xs
  obtain ⟨k, ks, hk, hcloser⟩ := exists_closer he zs us
  have around : ∀ q, b ++ z :: (q ++ k :: ks) =
      hs ++ (xs.flatMap (· ++ [comma]) ++ commaList q zs ++ e :: us) := by
    intro q
    have := congrArg (· ++ (q ++ (zs.flatMap (comma :: ·) ++ e :: us))) hz
    rw [commaList, ← hk]
    simpa using this.symm
  have htokens := hts.trans (around y).symm
  have hahead : Lexed (b ++ [z]) := by
    rw [List.append_cons] at htokens
    exact (leads_of_scan htokens).2.lexed_opener hopener
  rw [hz, show scan (textOf (b ++ [z])) = _ from hahead] at ho
  have hscan := scan_exchange htokens hopener hcloser hl hw.uncommented hw.opens fun hb ↦ ho <| by
    by_contra hn
    rw [opensComment_left b [z] (by simpa using hn)] at hb
    cases hb
  have htext : textOf (b ++ z :: (ws ++ k :: ks)) ++ (scan s).rest = s' := by
    rw [around, textOf_append, textOf_append, textOf_arguments, textOf_cons, (isBlank_of_isCloseParen he).2.1, hs']
    simp
  rw [htext, around] at hscan
  refine ⟨⟨h.head, ⟨e, he, congrArg Scan.tokens hscan⟩, fun q hq ↦ ?_⟩, by rw [hscan]⟩
  have hpieces := h.pieces
  simp only [List.mem_append, List.mem_cons] at hq hpieces
  rcases hq with hq | rfl | hq
  · exact hpieces q (.inl hq)
  · exact ⟨hw.balanced, hw.covered⟩
  · exact hpieces q (.inr (.inr hq))

end ArgumentAt

/-- Another text in place of an argument of the first call changes nothing else of the call, if it ends
no comment that is opened ahead of it. -/
theorem findCall_exchange (hc : findCall s name = .ok (some c)) (hs : s = opening ++ c.args ++ ')' :: c.after)
    (hx : splitText isComma c.args = .ok (as ++ x :: bs)) (hws : tokens? w = .ok ws) (hw : IsArgument ws)
    (ho : opensComment (scan (opening ++ as.flatMap (· ++ [',']))).tokens = true → commentEnd w = none) :
    c.args = argumentList as x bs ∧
      findCall (opening ++ argumentList as w bs ++ ')' :: c.after) name =
        .ok (some { c with args := argumentList as w bs }) ∧
      splitText isComma (argumentList as w bs) = .ok (as ++ w :: bs) := by
  obtain ⟨a, hd, xs, y, zs, us, h, rfl, rfl, rfl⟩ := exists_argumentAt hc hx
  obtain rfl := Option.some.inj (Except.ok.inj (hc.symm.trans h.findCall_eq.1))
  obtain ⟨rfl, hl⟩ := tokens?_eq_ok_iff.1 hws
  have hopening : opening = textOf hd := by
    have htext := h.text.trans hs
    rw [List.append_assoc, List.append_assoc] at htext
    exact (List.append_cancel_right htext).symm
  subst hopening
  rw [← textOf_flatMap_comma, ← textOf_append] at ho
  obtain ⟨h', hrest⟩ := h.exchange hl hw ho rfl
  have hcall := h'.findCall_eq
  rw [hrest] at hcall
  exact ⟨rfl, hcall⟩

end

end QueryTemplate
