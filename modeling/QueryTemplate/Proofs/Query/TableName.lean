import QueryTemplate.Proofs.Filter.Reference
import QueryTemplate.Proofs.Join.Form
import QueryTemplate.Proofs.Query.Agreement
import QueryTemplate.Proofs.Query.Readable
namespace QueryTemplate

open Token Grammar Fragment

/-- The tokens of a table name, alone or after the name of its database. -/
inductive TableName : List Token → Prop
  | bare {x : Token} (hx : x.kind = .identifier) : TableName [x]
  | qualified {x y : Token} (hx : x.kind = .identifier) (hy : y.kind = .identifier) : TableName [x, point, y]

variable {t : Token} {ts us fs gs name : List Token} {q : Query} {d : Draft} {rest : Text}

/-- The list that some tokens of a table name leave in `FROM`. -/
def tablesOf (fs : List Token) : List Text := if fs = [] then [] else [textOf fs]

/-- A token that is read by itself and is no bracket. -/
def Token.isFlat (t : Token) : Bool := t.isOrdinary && t.kind ≠ .opening && t.kind ≠ .closing

theorem depthRun_of_flat (h : ∀ t ∈ ts, t.isFlat = true) (n : Nat) : depthRun n ts = some n := by
  induction ts with
  | nil => rfl
  | cons t ts ih =>
    obtain ⟨ht, hts⟩ := List.forall_mem_cons.1 h
    simp only [isFlat, Bool.and_eq_true, decide_eq_true_eq] at ht
    simpa [depthRun, isOpenParen, isCloseParen, ht] using ih hts

theorem isOrdinary_of_flat (h : t.isFlat = true) : t.isOrdinary = true := by
  simp only [isFlat, Bool.and_eq_true] at h
  exact h.1.1

theorem Lexed.ordinary_of_flat (hl : Lexed ts) (h : ∀ t ∈ ts, t.isFlat = true) : Ordinary ts :=
  fun t ht ↦ ⟨hl.lexical t ht, isOrdinary_of_flat (h t ht)⟩

theorem code_of_flat (h : t.isFlat = true) : t.kind ≠ .comment := by
  intro hk
  simp [isFlat, isOrdinary, hk] at h

namespace TableName

theorem kind_of_mem (h : TableName name) (ht : t ∈ name) : t.kind = .identifier ∨ t = point := by
  cases h with
  | bare hx => exact .inl (List.mem_singleton.1 ht ▸ hx)
  | qualified hx hy =>
    simp only [List.mem_cons, List.not_mem_nil, or_false] at ht
    rcases ht with rfl | rfl | rfl
    exacts [.inl hx, .inr rfl, .inl hy]

theorem flat (h : TableName name) : ∀ t ∈ name, t.isFlat = true := by
  intro t ht
  rcases h.kind_of_mem ht with hk | rfl
  · simp [isFlat, isOrdinary, isUnionAll, isClause, hk]
  · rfl

theorem prefix_cases (h : TableName name) (hp : fs <+: name) :
    fs = [] ∨ (∃ x, x ∈ name ∧ x.kind = .identifier ∧ (fs = [x] ∨ fs = [x, point])) ∨ fs = name := by
  obtain ⟨us, rfl⟩ := hp
  generalize hn : fs ++ us = name at h
  cases h with
  | bare hx => rcases fs with _ | ⟨a, _ | ⟨b, fs⟩⟩ <;> simp_all
  | qualified hx hy => rcases fs with _ | ⟨a, _ | ⟨b, _ | ⟨c, fs⟩⟩⟩ <;> simp_all

/-- A start of a table name is written as it stands. -/
theorem pushTokens (h : TableName name) (hl : ∀ t ∈ name, Lexed [t]) (hp : fs <+: name) :
    fs.foldl (fun f t ↦ f.pushToken t) ({} : Fragment) = ⟨textOf fs, 0, !fs.isEmpty, false⟩ := by
  have hpush : ∀ {t : Token} (f : Fragment), t.kind = .identifier ∨ t = point → needsSpace f.text t = false →
      f.pushToken t = ⟨f.text ++ t.text, f.depth, true, false⟩ := by
    intro t f ht hs
    have hparen : t.isOpenParen = false ∧ t.isCloseParen = false := by
      rcases ht with ht | rfl <;> simp [isOpenParen, isCloseParen, point, *]
    simp [Fragment.pushToken, hs, hparen]
  have hpoint : ∀ {x : Token}, x ∈ name → x.kind = .identifier → needsSpace x.text point = false := by
    intro x hx hk
    have hc := List.getLast?_eq_some_getLast (hl x hx).text_ne_nil
    have ha := Text.attaches_of_isNameChar ((hl x hx).forall_isNameChar hk _ (List.mem_of_getLast? hc))
    simp [needsSpace, hc, point, ha]
  have hfirst : ∀ t, needsSpace [] t = false := fun _ ↦ rfl
  rcases h.prefix_cases hp with rfl | ⟨x, hx, hk, rfl | rfl⟩ | rfl
  · rfl
  · simp [hpush {} (.inl hk) (hfirst x)]
  · rw [List.foldl_cons, List.foldl_cons, hpush {} (.inl hk) (hfirst x), hpush _ (.inr rfl) (hpoint hx hk)]
    simp
  · cases h with
    | bare hx => simp [hpush {} (.inl hx) (hfirst _)]
    | @qualified x y hx hy =>
      have hlast : needsSpace (x.text ++ ['.']) y = false := by simp [needsSpace]
      rw [List.foldl_cons, List.foldl_cons, List.foldl_cons, hpush {} (.inl hx) (hfirst x),
        hpush _ (.inr rfl) (hpoint List.mem_cons_self hx), hpush _ (.inl hy) hlast]
      simp

theorem solid (h : TableName name) (hl : ∀ t ∈ name, Lexed [t]) (hp : fs <+: name) : Solid (textOf fs) := by
  have hpoint : Solid point.text := ⟨by decide, by decide⟩
  have hname : ∀ t ∈ name, Solid t.text := by
    intro t ht
    rcases h.kind_of_mem ht with hk | rfl
    · exact Lexical.solid ⟨[], hl t ht⟩ (by simp [hk]) (by simp [hk])
    · exact hpoint
  have hall : ∀ fs : List Token, (∀ t ∈ fs, Solid t.text) → Solid (textOf fs) := by
    intro fs hfs
    induction fs with
    | nil => exact ⟨nofun, nofun⟩
    | cons t fs ih =>
      obtain ⟨ht, hfs⟩ := List.forall_mem_cons.1 hfs
      exact ht.append (ih hfs)
  exact hall fs fun t ht ↦ hname t (hp.subset ht)

theorem ne_nil (h : TableName name) : name ≠ [] := by cases h <;> exact List.cons_ne_nil _ _

theorem isBlank_of_mem (h : TableName name) (ht : t ∈ name) : t.isBlank = false := by
  rcases h.kind_of_mem ht with hk | rfl
  · simp [Token.isBlank, hk]
  · rfl

theorem kind_ne_clause (h : TableName name) (ht : t ∈ name) : t.kind ≠ .clause := by
  rcases h.kind_of_mem ht with hk | rfl <;> simp [point, *]

theorem ne_slash (h : TableName name) (hl : ∀ t ∈ name, Lexed [t]) (ht : t ∈ name) : t.text ≠ ['/'] := by
  rcases h.kind_of_mem ht with hk | rfl
  · exact Lexed.ne_slash ((hl t ht).isWord_of_kind (by rw [hk]; rfl))
  · decide

/-- Nothing or the second name follows a name. -/
theorem suffix_cases (h : TableName (fs ++ t :: gs)) (hk : t.kind = .identifier) : gs = [] ∨ ∃ y, gs = [point, y] := by
  generalize hn : fs ++ t :: gs = name at h
  cases h with
  | bare hx => rcases fs with _ | ⟨a, fs⟩ <;> simp_all
  | qualified hx hy => rcases fs with _ | ⟨a, _ | ⟨b, _ | ⟨c, fs⟩⟩⟩ <;> simp_all [point]

/-- The parts of a table name are read alone as they are read in it. -/
theorem alone (h : TableName name) (hc : ahead us = []) (hl : Lexed (name ++ us)) : ∀ t ∈ name, Lexed [t] := by
  have hpoint : ∀ us, ahead (point :: us) = [] := ahead_symbol rfl rfl
  cases h with
  | bare hx => exact List.forall_mem_singleton.2 (hl.alone (by simp [hx]) fun _ ↦ .inr hc)
  | qualified hx hy =>
    refine List.forall_mem_cons.2 ⟨hl.alone (by simp [hx]) fun _ ↦ .inr (hpoint _), ?_⟩
    refine List.forall_mem_cons.2 ⟨by decide, List.forall_mem_singleton.2 ?_⟩
    exact hl.tail.tail.alone (by simp [hy]) fun _ ↦ .inr hc

end TableName

theorem parse_pushTokens (hk : ∀ t ∈ ts, t.kind = .identifier ∨ t = point) :
    parseTokens rest (ts ++ us) d = parseTokens rest us (d.hold (ts.foldl (fun f t ↦ f.pushToken t) d.fragment)) := by
  induction ts generalizing d with
  | nil => rfl
  | cons t ts ih =>
    obtain ⟨ht, hts⟩ := List.forall_mem_cons.1 hk
    have hs : d.step rest t (ts ++ us) = .ok (d.pushToken t, ts ++ us) := by
      rcases ht with ht | rfl <;> simp [Draft.step, Draft.action, point, *]
    rw [List.cons_append, parseTokens_step hs, ih hts]
    rfl

theorem Query.has_assign_of_seen {c : Clause} {seen : List Clause} (hc : c.isListed = true)
    (h : ∀ e ∈ Clause.keywordClauses, q.has e = seen.contains e) (xs : List Text) :
    ∀ e ∈ Clause.keywordClauses, (q.assign xs c).has e = (c :: seen).contains e := by
  intro e he
  rw [Query.has_assign hc, h e he, List.contains_cons]
  congr 1

/-- A start of a table name after `FROM` is the only item there. -/
theorem TableName.parse_source (h : TableName name) (hl : ∀ t ∈ name, Lexed [t]) (hp : fs <+: name)
    (hg : ∀ t ∈ gs, t.isBlank = true) (hd : d.Ends q) (hq : q.has .source = false) (us : List Token) :
    ∃ d', parseTokens [] (⟨.clause, "FROM"⟩ :: (gs ++ fs ++ us)) d = parseTokens [] us d' ∧
      d'.Ends (q.assign (tablesOf fs) .source) := by
  have hkind : ∀ t ∈ fs, t.kind = .identifier ∨ t = point := fun t ht ↦ h.kind_of_mem (hp.subset ht)
  refine ⟨⟨q.assign [] .source, .source, ⟨textOf fs, 0, !fs.isEmpty, false⟩⟩, ?_, ?_, rfl, fun e _ ↦ ?_⟩
  · rw [hd.parse_heading rfl (c := .source) (by decide) rfl hq, List.append_assoc, parse_blanks hg,
      parse_pushTokens hkind, h.pushTokens hl hp]
    rfl
  · have htrim := (h.solid hl hp).trim
    cases fs with
    | nil => rfl
    | cons t fs =>
      have hne : textOf (t :: fs) ≠ [] := fun e ↦
        (hl t (hp.subset List.mem_cons_self)).text_ne_nil (List.append_eq_nil_iff.1 e).1
      rw [show tablesOf (t :: fs) = [textOf (t :: fs)] from rfl]
      generalize textOf (t :: fs) = s at htrim hne ⊢
      simp [Draft.flush, Fragment.take?, htrim, hne, Draft.push, Query.push?, Query.modify?, Query.assign]
  · cases e <;> rfl

/-- Balanced tokens that are read one by one are a query. -/
theorem exists_parse (hb : Balanced ts) (ho : Ordinary ts) : ∃ r, parseTokens [] ts {} = .ok r :=
  exists_query hb fun t ht ↦ isSimple_of_isOrdinary (ho t ht).2

/-- What stands between `SELECT` and a clause that opens next. -/
theorem parse_select (ts us : List Token) (ho : Ordinary ts) (hb : Balanced ts)
    (hc : Covered (·.opens [.slot .select]) 0 ts) :
    ∃ d q, parseTokens [] (⟨.clause, "SELECT"⟩ :: (ts ++ us)) {} = parseTokens [] us d ∧ d.Ends q ∧
      ∀ e ∈ Clause.keywordClauses, q.has e = [Clause.slot .select].contains e := by
  let q₀ : Query := Query.assign {} [] (.slot .select)
  have hseen : ∀ e ∈ Clause.keywordClauses, q₀.has e = [Clause.slot .select].contains e := by decide
  have hq₀ : q₀.has (.slot .select) = true := rfl
  obtain ⟨d, q, h, hd, hq, hcell, -⟩ := parse_run us (fun _ _ hb ho ↦ exists_parse hb ho) (Nat.le_refl _)
    (q := q₀) (c := .slot .select) rfl (.inr (by decide)) ho hb hseen hc
  refine ⟨d, q, (Draft.ends_empty.parse_heading rfl (c := .slot .select) (by decide) rfl rfl).trans h, hd, fun e he ↦ ?_⟩
  refine (hq.has hq₀ ?_ he).trans (hseen e he)
  rw [Query.has_eq_isSome_cell (e := .slot .select) (by decide) nofun, hcell]

/-- What `FROM` holds is there to stay when `WHERE` opens. -/
theorem Draft.Ends.parse_where (ts : List Token) (hd : d.Ends q)
    (hseen : ∀ e ∈ Clause.keywordClauses, q.has e = [Clause.source, .slot .select].contains e) (ho : Ordinary ts)
    (hb : Balanced ts) :
    ∃ q', parseTokens [] (⟨.clause, "WHERE"⟩ :: ts) d = .ok q' ∧ q'.source = q.source ∧ q'.calls = q.calls := by
  have hnew : q.has (.slot .condition) = false := hseen _ (by decide)
  have hopen := Query.has_assign_of_seen (c := .slot .condition) rfl hseen []
  obtain ⟨q', hq', hread⟩ := parse_chapters (fun _ _ hb ho ↦ exists_parse hb ho) (Nat.le_refl _)
    (cell_assign rfl []) (.inr (by decide)) ho hb hopen
  refine ⟨q', (hd.parse_heading rfl (c := .slot .condition) (by decide) rfl hnew).trans hq', ?_, hread.rest.1⟩
  exact hread.cell .source nofun (.inr (by decide)) nofun

end QueryTemplate
