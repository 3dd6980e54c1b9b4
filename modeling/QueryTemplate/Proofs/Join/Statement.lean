import QueryTemplate.Proofs.Join.Clauses
namespace QueryTemplate

open Token Fragment Grammar

variable {a b e us ts z gs : List Token} {t : Token} {c : Clause} {n : Bool} {f : Fragment}
    {items : List Text} {indent x : Text}
  {js : List (Join Query)} {xs : List Filling} {q : Query} {d : Nat}

/-- Tokens of which none ends an expression are put into it one after another. -/
theorem reads_extend (h : ∀ t ∈ inked ts, ∀ f, Pushes c n f t) (f : Fragment) :
    Reads c n f ts [] (f.extend ts) := by
  induction ts generalizing f with
  | nil => exact .nil
  | cons t ts ih =>
    cases hb : t.isBlank with
    | true =>
      rw [inked_cons_blank hb] at h
      rw [extend_blank hb]
      exact .blank hb (ih h f)
    | false =>
      rw [inked_cons hb] at h
      obtain ⟨ht, h⟩ := List.forall_mem_cons.1 h
      rw [extend_cons hb]
      exact .token (ht f) (ih h _)

/-- A part of the name of a table. -/
def IsNaming (t : Token) : Prop := t.kind = .identifier ∨ t.kind = .string ∨ t = point

theorem IsNaming.kind (h : IsNaming t) :
    t.kind = .identifier ∨ t.kind = .string ∨ t.kind = .operator := by
  rcases h with h | h | rfl
  · exact .inl h
  · exact .inr (.inl h)
  · exact .inr (.inr rfl)

theorem IsNaming.pushes (h : IsNaming t) (c : Clause) (n : Bool) (f : Fragment) :
    Pushes c n f t := by
  rcases h.kind with hk | hk | hk <;> exact ⟨by simp [hk], by simp [hk, isComma], by simp [hk], by simp [isOpenParen, hk]⟩

theorem balanced_of_naming (h : ∀ t ∈ inked ts, IsNaming t) : Balanced ts := by
  rw [Balanced, ← depthRun_inked]
  generalize inked ts = us at h ⊢
  induction us with
  | nil => rfl
  | cons t us ih =>
    obtain ⟨ht, h⟩ := List.forall_mem_cons.1 h
    have hp : t.isOpenParen = false ∧ t.isCloseParen = false := by
      rcases ht.kind with hk | hk | hk <;> simp [isOpenParen, isCloseParen, hk]
    rw [depthRun, hp.1, hp.2]
    exact ih h

theorem IsName.naming (h : IsName ts) : ∀ t ∈ ts, IsNaming t := by
  obtain ⟨t, us, rfl, hk⟩ := h
  obtain ⟨ht, hk⟩ := List.forall_mem_cons.1 hk
  have hkind : ∀ u : Token, u.kind = .identifier ∨ u.kind = .string → IsNaming u :=
    fun u h ↦ h.imp_right .inl
  refine List.forall_mem_cons.2 ⟨hkind t ht, fun u hu ↦ ?_⟩
  obtain ⟨v, hv, hu⟩ := List.mem_flatMap.1 hu
  simp only [List.mem_cons, List.not_mem_nil, or_false] at hu
  rcases hu with rfl | rfl
  · exact .inr (.inr rfl)
  · exact hkind u (hk u hv)

theorem IsAlias.naming (h : IsAlias ts) : ∀ t ∈ ts, IsNaming t := by
  cases h with
  | none => exact nofun
  | bare ht => simpa using .inl ht
  | named ha ht => simpa using ⟨.inl ha.1, .inl ht⟩

theorem fills_from (ht : t.isClause "from" = true) (hn : ∀ u ∈ inked us, IsNaming u) (hf : Firm us)
    (hne : inked us ≠ []) :
    Fills (t :: us) [.items .source [(written us).text]] := by
  simp only [isClause, Bool.and_eq_true, decide_eq_true_eq] at ht
  have hw : Clause.ofKeyword? t.keyword = some .source := by
    rw [ht.2]
    decide
  have htake : (written us).take? = some (written us).text := by
    rw [hf.take?_written, itemOf?, if_neg hne]
  have hr : ReadsTo .source false {} us [(written us).text] :=
    ⟨[], _, reads_extend (fun u hu f ↦ (hn u hu).pushes _ _ f) {}, by rw [← written_eq, htake]; rfl⟩
  intro q d vs hd hq hv
  exact fills_items ht.1 hw hr (balanced_of_naming hn) hd hq hv

/-- What stands after the joins of a query: `WHERE` and predicates, or white space. -/
structure Finishes (ts : List Token) (xs : List Filling) : Prop where
  clause : ∀ x ∈ xs, ∃ items, x = .items (.slot .condition) items
  one : xs.length ≤ 1
  fills : Fills ts xs
  halts : ∀ {gs}, (∀ g ∈ gs, g.isBlank = true) → Halts (ts ++ gs)
  lines : ∀ indent, IsIndent indent → ∃ n, Adds (xs.flatMap (·.lines indent)) n
  printed : ∀ indent, IsIndent indent →
    ∃ ps, (xs.flatMap (·.lines indent)).flatMap (['\n'] ++ ·) = textOf ps ∧ Fills ps xs ∧
    (∀ {gs}, (∀ g ∈ gs, g.isBlank = true) → Halts (ps ++ gs)) ∧ ∀ {z vs us}, Ending z vs us →
      Onward z (ts ++ vs) (ps ++ us)

theorem halts_blanks (hg : ∀ g ∈ gs, g.isBlank = true) : Halts gs := by
  rw [← List.append_nil gs]
  exact halts_nil.blanks hg

theorem Finishes.blanks (hg : ∀ g ∈ gs, g.isBlank = true) : Finishes gs [] where
  clause := nofun
  one := Nat.zero_le 1
  fills := fills_blanks hg
  halts hh := halts_blanks (List.forall_mem_append.2 ⟨hg, hh⟩)
  lines _ _ := ⟨0, .nil⟩
  printed _ _ := ⟨[], rfl, fills_blanks (List.forall_mem_nil _), halts_blanks,
    fun he ↦ (Lays.skip hg).onward he.onward⟩

theorem Headed.halts (h : Headed ts) : Halts ts := by
  obtain ⟨t, us, rfl, hk, hl⟩ := h
  exact halts_cons (by simp [isBreak, hk]) hl us

theorem Renders.finishes (h : Renders ts (.items (.slot .condition) items)) :
    Finishes ts [.items (.slot .condition) items] where
  clause := by simp
  one := Nat.le_refl 1
  fills := h.prints.fills
  halts _ := (h.prints.headed.append _).halts
  lines indent hi := by simpa using h.lines indent hi
  printed indent hi := by
    obtain ⟨ps, htext, hhead, hfills, hrelaid⟩ := h.prints.printed indent hi
    have hgap := hi.isGap
    refine ⟨newLine indent :: ps, ?_, Fills.blank hfills hgap.isBlank, fun {gs} _ ↦ ?_,
      fun {z vs us} he ↦ ?_⟩
    · obtain ⟨y, ys, hy⟩ := List.exists_cons_of_ne_nil
        (l := [Filling.items (.slot .condition) items].flatMap (·.lines indent)) fun e ↦ by
        rw [e] at htext
        exact hhead.textOf_ne_nil (List.append_eq_nil_iff.1 htext.symm).2
      rw [hy, join_cons] at htext
      rw [hy, List.flatMap_cons, List.append_assoc, htext]
      simp [newLine]
    · have hh : Halts ([newLine indent] ++ (ps ++ gs)) :=
        (hhead.append gs).halts.blanks (isBlank_of_newLine hi)
      exact hh
    · exact (Headed.ending hgap (h.prints.headed.append vs) (hhead.append us) (hrelaid he)).onward

/-- A query of items, a table and joins. -/
def joinedQuery (items : List Text) (x : Text) (js : List (Join Query)) : Query :=
  { slots := { select := some items }, source := some (.table [x]), joins := js }

theorem accepts_item (hc : c ∈ Clause.printOrder) (h : q.has c = false)
    (ha : c = .source → q.has (.slot .aliases) = false) :
    q.Accepts [.items c items] where
  order := List.forall_mem_singleton.2 hc
  nodup := by simp
  closed := List.forall_mem_singleton.2 h
  aliases := fun ⟨y, hy, e⟩ ↦ by
    obtain rfl := List.mem_singleton.1 hy
    exact ha e

theorem Halts.noGroup (h : Halts ts) : NoGroup ts := fun o ho ↦ (h.wordFirst.endsName o ho).2

theorem accepts_finish (hc : ∀ y ∈ xs, ∃ items, y = .items (.slot .condition) items)
    (ho : xs.length ≤ 1) (items : List Text) (x : Text) (js : List (Join Query)) :
    (joinedQuery items x js).Accepts xs := by
  rcases xs with _ | ⟨y, _ | ⟨y', xs⟩⟩
  · exact ⟨nofun, List.nodup_nil, nofun, nofun⟩
  · obtain ⟨ys, rfl⟩ := hc y List.mem_cons_self
    exact accepts_item (by decide) rfl nofun
  · simp at ho

/-- `SELECT`, `FROM`, joins and what follows them are read one after another. -/
theorem parse_joined (ha : Fills a [.items (.slot .select) items])
    (hb : Fills b [.items .source [x]]) (hj : Adjoins ts js) (he : Fills e xs)
    (hc : ∀ y ∈ xs, ∃ items, y = .items (.slot .condition) items) (ho : xs.length ≤ 1)
    (hn : ∀ us, NoGroup (b ++ us)) (hh : Halts (e ++ gs)) (hg : ∀ g ∈ gs, g.isBlank = true) :
    parseTokens [] (a ++ (b ++ (ts ++ (e ++ gs)))) {} = .ok ((joinedQuery items x js).puts xs) := by
  obtain ⟨d₁, h₁, hd₁⟩ := ha Draft.ends_empty (accepts_item (by decide) rfl nofun)
    (hn (ts ++ (e ++ gs)))
  obtain ⟨d₂, h₂, hd₂⟩ := hb hd₁ (accepts_item (by decide) rfl fun _ ↦ rfl) (hj.halts hh).noGroup
  obtain ⟨d₃, h₃, hd₃⟩ := hj.parse hd₂ hh
  obtain ⟨d₄, h₄, hd₄⟩ := he
    (q := joinedQuery items x js) hd₃ (accepts_finish hc ho items x js) (halts_blanks hg).noGroup
  rw [h₁, h₂, h₃, h₄, ← List.append_nil gs, parse_blanks hg, parseTokens_nil, hd₄.query]
  rfl

theorem slotLines_getD (indent : Text) (slots : Slots) (s : Slot) :
    Query.slotLines indent slots s =
      ((slots.get s).map (Query.listLines indent (.slot s))).getD [] := by
  rw [Query.slotLines_eq indent { slots := slots } s]
  cases h : slots.get s with
  | none => exact Query.clauseOf_of_none indent h nofun
  | some xs => exact Query.clauseOf_of_items indent h

theorem lines_joined (hne : items ≠ [])
    (hc : ∀ y ∈ xs, ∃ items, y = .items (.slot .condition) items) (ho : xs.length ≤ 1)
    (indent x : Text) (js : List (Join Query)) : ((joinedQuery items x js).puts xs).lines indent =
      Query.listLines indent (.slot .select) items ++ Query.listLines indent .source [x] ++
        Query.lines.joinLines indent js ++ xs.flatMap (·.lines indent) := by
  have hlines : ∀ o : Option (List Text), Query.lines indent
      { slots := { select := some items, condition := o }, source := some (.table [x]),
        joins := js } =
        Query.listLines indent (.slot .select) items ++ Query.listLines indent .source [x] ++
          Query.lines.joinLines indent js ++
              (o.map (Query.listLines indent (.slot .condition))).getD [] := by
    intro o
    rw [lines_parts, if_neg (by simpa using hne)]
    simp [slotLines_getD, Slots.get, Query.clauseOf, Query.branchLines, Query.lines.callLines]
  rcases xs with _ | ⟨y, _ | ⟨y', xs⟩⟩
  · exact (hlines none).trans (by simp)
  · obtain ⟨ys, rfl⟩ := hc y List.mem_cons_self
    exact (hlines (some ys)).trans (by simp [Filling.lines])
  · simp at ho

end QueryTemplate
