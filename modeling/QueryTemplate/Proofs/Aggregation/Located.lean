import QueryTemplate.Aggregation.Basic
import QueryTemplate.Proofs.Query.ConserveStep
import QueryTemplate.Proofs.Query.Prefix
namespace QueryTemplate

open Token

namespace Query

variable {m n : Text} {x : CallArgs Query} {cs : List (Text × CallArgs Query)}

theorem lookup_cons : ((n, x) :: cs).lookup m = if m = n then some x else cs.lookup m := by
  rw [List.lookup_cons]
  by_cases h : m = n
  · rw [beq_iff_eq.2 h, if_pos h]
  · rw [beq_eq_false_iff_ne.2 h, if_neg h]

theorem lookup_insertCall : (insertCall n x cs).lookup m = if m = n then some x else cs.lookup m := by
  induction cs with
  | nil => exact lookup_cons
  | cons c cs ih =>
    obtain ⟨l, y⟩ := c
    rw [insertCall]
    split
    · subst_vars
      rw [lookup_cons, lookup_cons]
      split <;> rfl
    · rename_i hl
      split
      · exact lookup_cons
      · rw [lookup_cons, ih, lookup_cons]
        by_cases hm : m = n
        · subst hm
          rw [if_pos rfl, if_pos rfl, if_neg hl]
        · rw [if_neg hm, if_neg hm]

end Query

/-- Whether the token is the name of the macro `n`. -/
def Token.isCall (n : Text) (t : Token) : Bool := t.kind = .aggregation && t.text = n

section

variable {rest n : Text} {t t' : Token} {a a' b b' ts us : List Token} {d : Draft} {q : Query}

/-- The arguments of the macro `n` are read as `x` at the token `t` before the tokens `b`. -/
structure ReadAt (rest n : Text) (t : Token) (b : List Token) (x : CallArgs Query) : Prop where
  name : t.isCall n = true
  args : ∃ body us r, callGroup n rest b = .ok (body, us) ∧ parseTokens [] body {} = .ok r ∧
    x = .ofQuery r

/-- A macro of a query was read before, or it is read at one of the tokens; in a statement that token
stands outside of all parentheses. -/
theorem Draft.exists_call {cs : List (Text × CallArgs Query)} (h : d.Holds cs)
    (hq : parseTokens rest ts d = .ok q) (n : Text) :
    q.lookupCall n = cs.lookup n ∨ ∃ a t b x, ts = a ++ t :: b ∧ q.lookupCall n = some x ∧
      ReadAt rest n t b x ∧
      ∀ k, rest = [] → d.Leaves k → InStatement k ts → standing (depthAfter k a) t = 0 := by
  induction hn : ts.length using Nat.strongRecOn generalizing ts d cs with
  | ind l ih =>
    cases ts with
    | nil =>
      rw [parseTokens_nil] at hq
      exact .inl (eq_of_atEnd hq ▸ congrArg (List.lookup n) h.flush.calls)
    | cons t ts =>
      rw [parseTokens_cons] at hq
      obtain ⟨⟨d', us⟩, hs, hrun⟩ := ok_of_bind hq
      obtain ⟨v, rfl⟩ := suffix_of_step hs
      have hl : us.length < l := by
        rw [← hn, List.length_cons, List.length_append]
        omega
      have hdepth : ∀ {k m}, InStatement k (t :: (v ++ us)) → InStatement m us → depthAfter k (t :: v) = m :=
        fun hi hi' ↦ depthAfter_of_suffix hi.balanced hi'.balanced
      -- the rest of the run, from the macros that are known after the step
      have run : ∀ {cs'}, d'.Holds cs' → q.lookupCall n = cs'.lookup n ∨
          ∃ a u b x, t :: (v ++ us) = a ++ u :: b ∧ q.lookupCall n = some x ∧ ReadAt rest n u b x ∧
            ∀ k, rest = [] → d.Leaves k → InStatement k (t :: (v ++ us)) →
              standing (depthAfter k a) u = 0 := by
        intro cs' h'
        refine (ih us.length hl h' hrun rfl).imp_right ?_
        rintro ⟨a, u, b, x, rfl, hx, hr, hd⟩
        refine ⟨t :: (v ++ a), u, b, x, by simp, hx, hr, ?_⟩
        rintro k rfl hleaves hi
        obtain ⟨m, hm, hi'⟩ := (hleaves.step hi fun _ _ ↦ opensNoGroup_nil).2 _ hs
        rw [← List.cons_append, depthAfter_append, hdepth hi hi']
        exact hd m rfl hm hi'
      rcases h.step hs with h' | ⟨body, r, hk, hf, hp, hr, h'⟩
      · exact run h'
      · refine (run h').elim (fun e ↦ ?_) .inr
        rw [Query.lookup_insertCall] at e
        split at e
        · rename_i hname
          refine .inr ⟨[], t, v ++ us, _, rfl, e, ⟨by simp [isCall, hk, hname], body, us, r, ?_, hr, rfl⟩, ?_⟩
          · rw [hname, hp]
          · rintro k - hleaves -
            obtain rfl := hleaves.isBalanced hf
            simp [standing]
        · exact .inl e

/-- The uses of the macro `n` after the first one, if there are any, are in parentheses of one
statement. -/
def SoleCall (n : Text) (ts : List Token) : Prop :=
  ∃ a t b, ts = a ++ t :: b ∧ t.isCall n = true ∧ (∀ u ∈ a, u.isCall n = false) ∧
    ((∀ u ∈ b, u.isCall n = false) ∨
      InStatement 0 ts ∧ Covered (isCall n) (depthAfter 0 (a ++ [t])) b)

/-- Of a sole use there is no other that is read. -/
theorem eq_of_sole (he : a ++ t :: b = a' ++ t' :: b') (ha : ∀ u ∈ a, u.isCall n = false)
    (ht' : t'.isCall n = true)
    (hb : (∀ u ∈ b, u.isCall n = false) ∨ standing (depthAfter 0 a') t' = 0 ∧
      Covered (isCall n) (depthAfter 0 (a ++ [t])) b) : t = t' ∧ b = b' := by
  rcases List.append_eq_append_iff.1 he with ⟨v, rfl, hv⟩ | ⟨v, rfl, hv⟩
  · cases v with
    | nil => exact List.cons.inj hv
    | cons u v =>
      obtain ⟨rfl, rfl⟩ := List.cons.inj hv
      rcases hb with hb | ⟨hd, hb⟩
      · rw [hb t' (by simp)] at ht'
        cases ht'
      · rw [List.append_cons, depthAfter_append] at hd
        have := (covered_cons.1 (covered_append.1 hb).2).1 hd
        rw [ht'] at this
        cases this
  · cases v with
    | nil =>
      obtain ⟨rfl, rfl⟩ := List.cons.inj hv
      exact ⟨rfl, rfl⟩
    | cons u v =>
      obtain ⟨rfl, -⟩ := List.cons.inj hv
      rw [ha t' (by simp)] at ht'
      cases ht'

namespace Aggregation

variable {s : Text} {call : Invocation}

/-- The first use of a macro is the one that is found. -/
theorem group_of_locate (hl : locate s n = .ok call) (hts : (scan s).tokens = a ++ t :: b)
    (ha : ∀ u ∈ a, u.isCall n = false) (ht : t.isCall n = true) :
    (scan s).rest = [] ∧ ∃ body us, callGroup n [] b = .ok (body, us) ∧ call.args = textOf body := by
  have hother : (fun t : Token ↦ !(t.kind = .aggregation && t.text = n)) = fun t ↦ !t.isCall n := rfl
  have hdrop : (a ++ t :: b).dropWhile (fun t ↦ !t.isCall n) = t :: b := by
    rw [List.dropWhile_append_of_pos fun u hu ↦ by rw [ha u hu]; rfl, List.dropWhile_cons_of_neg (by simp [ht])]
  simp only [locate, hts, hother, hdrop] at hl
  obtain ⟨⟨body, us⟩, hp, hl⟩ := ok_of_bind hl
  obtain ⟨_, hr, hl⟩ := ok_of_bind hl
  have hrest : (scan s).rest = [] := by
    simp only [atEnd] at hr
    split at hr
    · assumption
    · cases hr
  rw [hrest] at hp
  refine ⟨hrest, body, us, hp, ?_⟩
  split at hl
  · cases hl
  · exact congrArg Invocation.args (Except.ok.inj hl).symm

/-- What a macro's parentheses enclose is read by itself as in the query. -/
theorem lexed_of_callGroup {body : List Token} (hts : (scan s).tokens = a ++ t :: b)
    (hp : callGroup n rest b = .ok (body, us)) : Lexed body := by
  obtain ⟨-, gs, o, e, hb, -, -, he⟩ := Draft.callGroup_eq_ok hp
  have h : (scan s).tokens = (a ++ t :: (gs ++ [o]) ++ body) ++ e :: us := by
    rw [hts, hb]
    simp
  exact (lexed_of_scan h (.inl he)).suffix

/-- The call of a macro that is found is the one that the query describes, if no other use of the
macro can be read in its place. -/
theorem locate_describes {m : Aggregation} {xs : List Text} (hq : parse s = .ok q)
    (hx : q.lookupCall m.name = some (.list xs)) (hl : locate s m.name = .ok call)
    (hs : SoleCall m.name (scan s).tokens) :
    ∃ r, parse call.args = .ok r ∧ r.isBareRoot = true ∧ r.root = xs := by
  obtain ⟨a, t, b, hts, ht, ha, hb⟩ := hs
  obtain ⟨hrest, body, us, hp, hargs⟩ := group_of_locate hl hts ha ht
  rw [parse] at hq
  simp only [hrest] at hq
  rcases Draft.exists_call .empty hq m.name with h | ⟨a', t', b', x, hts', hx', hr, hd⟩
  · rw [hx] at h
    cases h
  · have hsole : t = t' ∧ b = b' := by
      refine eq_of_sole (hts.symm.trans hts') ha hr.name (hb.imp_right fun h ↦ ⟨?_, h.2⟩)
      exact hd 0 rfl ⟨rfl, rfl⟩ h.1
    obtain ⟨rfl, rfl⟩ := hsole
    obtain ⟨body', us', r, hp', hr', hxr⟩ := hr.args
    obtain ⟨rfl, rfl⟩ := Prod.mk.inj (Except.ok.inj (hp.symm.trans hp'))
    have hlist : CallArgs.ofQuery r = .list xs := by
      rw [← hxr]
      exact Option.some.inj (hx'.symm.trans hx)
    refine ⟨r, by rw [hargs, parse_textOf (lexed_of_callGroup hts hp), hr'], ?_⟩
    rw [CallArgs.ofQuery] at hlist
    split at hlist
    · exact ⟨‹_›, CallArgs.list.inj hlist⟩
    · cases hlist

theorem locate_describes_nested :
    let s : Text := "$rate(a AS b) FROM ($rate(c AS d) FROM u)"
    ∃ call r, locate s "$rate" = .ok call ∧ parse call.args = .ok r ∧ r.isBareRoot = true ∧
      r.root = [("a AS b" : Text)] := by
  intro s
  let rate : Token := ⟨.aggregation, "$rate"⟩
  let args (x y : Text) : List Token :=
    [⟨.opening, "("⟩, ⟨.identifier, x⟩, space, ⟨.identifier, "AS"⟩, space, ⟨.identifier, y⟩, ⟨.closing, ")"⟩]
  let later : List Token := args "a" "b" ++ [space, ⟨.clause, "FROM"⟩, space, ⟨.opening, "("⟩, rate] ++
    args "c" "d" ++ [space, ⟨.clause, "FROM"⟩, space, ⟨.identifier, "u"⟩, ⟨.closing, ")"⟩]
  have hlexed : Lexed (rate :: later) := by decide +kernel
  have htokens : (scan s).tokens = rate :: later := congrArg Scan.tokens hlexed
  have hsole : SoleCall "$rate" (scan s).tokens := by
    rw [htokens]
    exact ⟨[], rate, later, rfl, by decide, nofun, .inr ⟨⟨by decide, by decide, by decide⟩, by decide⟩⟩
  have hparse : (parse s).toOption.map (Query.lookupCall "$rate") = some (some (.list ["a AS b"])) := by
    decide +kernel
  obtain ⟨q, hq, hx⟩ := Option.map_eq_some_iff.1 hparse
  have hlocate : (locate s "$rate").toOption.isSome = true := by decide +kernel
  obtain ⟨call, hl⟩ := Option.isSome_iff_exists.1 hlocate
  obtain ⟨r, hr⟩ := locate_describes (m := .plain .rate) (toOption_eq_some.1 hq) hx (toOption_eq_some.1 hl) hsole
  exact ⟨call, r, toOption_eq_some.1 hl, hr⟩

end Aggregation
end
end QueryTemplate
