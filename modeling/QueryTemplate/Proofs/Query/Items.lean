import QueryTemplate.Proofs.Query.Run
namespace QueryTemplate

open Token Fragment Grammar

/-- Tokens after the expression `f` complete the items `xs`. -/
def ReadsTo (c : Clause) (n : Bool) (f : Fragment) (ts : List Token) (xs : List Text) : Prop :=
  ∃ ys g, Reads c n f ts ys g ∧ xs = ys ++ g.take?.toList

/-- The tokens of an item and the number of commas after it. -/
structure Cell where
  its : List Token
  commas : Nat

namespace Cell

def tokens (x : Cell) : List Token := x.its ++ List.replicate x.commas comma

/-- The items of a cell where commas are items themselves. -/
def items (x : Cell) : List Text := textOf x.its :: List.replicate x.commas [',']

end Cell

/-- Cells with a gap before each. -/
def trail (gap : Token) (xs : List Cell) : List Token := xs.flatMap fun x ↦ gap :: x.tokens

/-- Commas, and cells with a gap before each of them. -/
def spread (gap : Token) (k : Nat) (xs : List Cell) : List Token := List.replicate k comma ++ trail gap xs

/-- An item that is read alone as it is. -/
structure Good (its : List Token) : Prop where
  ne : its ≠ []
  lexed : Lexed its
  comment : ∀ t ∈ its, t.kind ≠ .comment
  solid : Solid (textOf its)
  marker : textOf its ≠ [',']
  head : ∀ t ∈ its.head?, t.isBlank = false

/-- Commas between neighbours. -/
def Separated : List Cell → Prop
  | [] => True
  | [x] => x.commas = 0
  | x :: y :: r => x.commas = 1 ∧ Separated (y :: r)

/-- How items and their cells go together: predicates keep their commas, other items have one between
neighbours. -/
def Shape (c : Clause) (xs : List Text) (k : Nat) (cells : List Cell) : Prop :=
  if c.isPredicate then
    xs = List.replicate k [','] ++ cells.flatMap Cell.items ∧
      (c ≠ .slot .condition → k = 0 ∧ ∀ x ∈ cells, x.commas = 0)
  else xs = cells.map (fun x ↦ textOf x.its) ∧ Separated cells

/-- Tokens after a complete expression `g` are read as further items `xs`, and so are the tokens by which
they are written. -/
structure Trails (c : Clause) (n : Bool) (g : Fragment) (ts : List Token) (xs : List Text) (k : Nat)
    (cells : List Cell) : Prop where
  reads : ReadsTo c n g ts (g.take?.toList ++ xs)
  rereads : ∀ gap, IsGap gap → ReadsTo c n g (spread gap k cells) (g.take?.toList ++ xs)
  noGroup : NoGroup ts ∧ ∀ gap, IsGap gap → NoGroup (spread gap k cells)
  relaid : ∀ {z vs ps} gap, IsGap gap → Ending z vs ps → Ending z (ts ++ vs) (spread gap k cells ++ ps)
  good : ∀ x ∈ cells, Good x.its
  shape : Shape c xs k cells
  between : c.isPredicate = false → k = if cells = [] then 0 else 1

/-- Commas and cells without a gap before the first cell. -/
def laid (gap : Token) (k : Nat) (cells : List Cell) : List Token := (spread gap k cells).dropWhile isBlank

/-- No comma comes next. -/
def NoComma (ts : List Token) : Prop := ∀ t ∈ (ts.dropWhile isBlank).head?, t.isComma = false

/-- Tokens that start an item are read as items `xs`, and so are the tokens by which they are written. -/
structure Listed (c : Clause) (n : Bool) (ts : List Token) (xs : List Text) (k : Nat) (cells : List Cell) :
    Prop where
  reads : ReadsTo c n {} ts xs
  rereads : ∀ gap, IsGap gap → ReadsTo c n {} (laid gap k cells) xs
  relaid : ∀ {z vs ps} gap, IsGap gap → Ending z vs ps → Relaid z (ts ++ vs) (laid gap k cells ++ ps) ∧
    (NoComma ts → ahead (ts ++ vs) = ahead (laid gap k cells ++ ps))
  same : ∀ t ∈ ts.head?, t.isBlank = false → t.isComma = false →
    ∀ gap, IsGap gap → (laid gap k cells).head? = some t
  good : ∀ x ∈ cells, Good x.its
  shape : Shape c xs k cells
  between : c.isPredicate = false → k = 0

variable {c : Clause} {n : Bool} {f g : Fragment} {ts us : List Token} {xs : List Text} {k : Nat}
  {cells : List Cell} {t gap : Token}

theorem laid_cons (hg : IsGap gap) {its : List Token} (hi : Good its) (k : Nat) (cells : List Cell) :
    laid gap 0 (⟨its, k⟩ :: cells) = its ++ spread gap k cells := by
  obtain ⟨t, us, rfl⟩ := List.exists_cons_of_ne_nil hi.ne
  have ht := hi.head t rfl
  rw [laid, spread, List.replicate_zero, List.nil_append, trail, List.flatMap_cons, List.cons_append,
    List.dropWhile_cons_of_pos hg.isBlank, Cell.tokens, List.cons_append, List.cons_append,
    List.dropWhile_cons_of_neg (by simp [ht]), spread, ← trail]
  simp

theorem spread_zero_cons (hg : IsGap gap) {x : Cell} (hi : Good x.its) (cells : List Cell) :
    spread gap 0 (x :: cells) = gap :: laid gap 0 (x :: cells) := by
  have hl : laid gap 0 (x :: cells) = x.its ++ spread gap x.commas cells := laid_cons hg hi x.commas cells
  rw [hl, spread, trail, List.flatMap_cons, Cell.tokens, spread, trail]
  simp

theorem laid_succ (gap : Token) (k : Nat) (cells : List Cell) : laid gap (k + 1) cells = spread gap (k + 1) cells := by
  rw [laid, spread, List.replicate_succ, List.cons_append, List.dropWhile_cons_of_neg (by simp [comma, Token.isBlank])]

theorem Trails.nil : Trails c n g [] [] 0 [] where
  reads := ⟨[], g, .nil, by simp⟩
  rereads _ _ := ⟨[], g, .nil, by simp⟩
  noGroup := ⟨noGroup_nil, fun _ _ ↦ noGroup_nil⟩
  relaid _ _ h := h
  good := nofun
  shape := by
    rw [Shape]
    split
    · exact ⟨rfl, fun _ ↦ ⟨rfl, nofun⟩⟩
    · exact ⟨rfl, trivial⟩
  between _ := rfl

theorem Listed.nil : Listed c n [] [] 0 [] where
  reads := ⟨[], {}, .nil, rfl⟩
  rereads _ _ := ⟨[], {}, .nil, rfl⟩
  relaid _ _ h := ⟨h.relaid, fun _ ↦ h.old.trans h.new.symm⟩
  same := nofun
  good := nofun
  shape := (Trails.nil (n := n) (g := {})).shape
  between _ := rfl

theorem Listed.blanks {gs : List Token} (hg : ∀ t ∈ gs, t.isBlank = true) (h : Listed c n ts xs k cells) :
    Listed c n (gs ++ ts) xs k cells where
  reads := by
    obtain ⟨ys, g, hr, hx⟩ := h.reads
    refine ⟨ys, g, ?_, hx⟩
    clear hx
    induction gs with
    | nil => exact hr
    | cons t gs ih => exact .blank (hg t List.mem_cons_self) (ih fun u hu ↦ hg u (List.mem_cons_of_mem _ hu))
  rereads := h.rereads
  relaid gap hgap he := by
    rw [List.append_assoc, ahead_blanks hg]
    refine ⟨(h.relaid gap hgap he).1.blanks hg, fun hc ↦ (h.relaid gap hgap he).2 ?_⟩
    rwa [NoComma, List.dropWhile_append_of_pos hg] at hc
  same t ht hb hc := by
    cases gs with
    | nil => exact h.same t ht hb hc
    | cons u gs =>
      obtain rfl := Option.some.inj ht
      rw [hg u List.mem_cons_self] at hb
      cases hb
  good := h.good
  shape := h.shape
  between := h.between

/-- An item and what follows it. -/
theorem Listed.cons {orig its : List Token} (hr : Rewrites c n {} none orig its g) (hc : g.Clean) (hi : Good its)
    (h : Trails c n g ts xs k cells) : Listed c n (orig ++ ts) (textOf its :: xs) 0 (⟨its, k⟩ :: cells) := by
  have htext : g.text = textOf its := hr.text
  have hne : g.text ≠ [] := fun e ↦ hi.ne (hr.empty (htext ▸ e))
  have htake : g.take?.toList = [textOf its] := by
    obtain ⟨q, hq⟩ := hr.ends
    rw [hq.take? hc, if_neg hne, htext]
    rfl
  refine ⟨?_, fun gap hg ↦ ?_, fun {z vs ps} gap hg he ↦ ?_, fun t ht hb _ gap hg ↦ ?_, ?_, ?_, fun _ ↦ rfl⟩
  · obtain ⟨ys, k, hk, hx⟩ := h.reads
    rw [htake] at hx
    exact ⟨ys, k, hr.reads h.noGroup.1 hk, hx⟩
  · obtain ⟨ys, k, hk, hx⟩ := h.rereads gap hg
    rw [htake] at hx
    rw [laid_cons hg hi]
    exact ⟨ys, k, hr.rereads (h.noGroup.2 gap hg) hk, hx⟩
  · rw [laid_cons hg hi, List.append_assoc, List.append_assoc]
    obtain ⟨h₁, h₂, -⟩ := hr.relaid (h.relaid gap hg he)
    exact ⟨h₁, fun _ ↦ h₂⟩
  · cases orig with
    | nil => exact absurd (hr.source rfl) hi.ne
    | cons u orig =>
      have hs := hr.same rfl t ht hb
      rw [laid_cons hg hi, List.head?_append, hs]
      rfl
  · exact List.forall_mem_cons.2 ⟨hi, h.good⟩
  · have := h.shape
    rw [Shape] at this ⊢
    split
    · rename_i hp
      rw [if_pos hp] at this
      refine ⟨by simp [this.1, Cell.items], fun hc ↦ ⟨rfl, List.forall_mem_cons.2 ?_⟩⟩
      exact this.2 hc
    · rename_i hp
      rw [if_neg hp] at this
      have hk := h.between (by simpa using hp)
      refine ⟨by simp [this.1], ?_⟩
      cases cells with
      | nil => exact hk
      | cons x r => exact ⟨hk, this.2⟩

theorem Reads.of_dropWhile {zs : List Text} (h : Reads c n f (ts.dropWhile isBlank) zs g) : Reads c n f ts zs g := by
  induction ts with
  | nil => exact h
  | cons t ts ih =>
    cases ht : t.isBlank with
    | true =>
      rw [List.dropWhile_cons_of_pos ht] at h
      exact .blank ht (ih h)
    | false => rwa [List.dropWhile_cons_of_neg (by simp [ht])] at h

/-- A conjunction ends what stands before it. -/
theorem Reads.of_conjunction {zs : List Text} (h : Reads c n {} (t :: us) zs g) (ht : t.kind = .conjunction)
    (hc : c.isPredicate = true) (hf : f.isBalanced = true) : Reads c n f (t :: us) (f.take?.toList ++ zs) g := by
  cases h with
  | blank hb => simp [Token.isBlank, ht] at hb
  | token hp =>
    have := hp.conjunction ht hc
    simp [Fragment.isBalanced] at this
  | comma hx => simp [isComma, ht] at hx
  | conjunction _ _ _ hr => exact .conjunction ht hc hf hr
  | member hk => simp [ht] at hk
  | alone hk => simp [ht] at hk
  | raw _ _ _ ho => simp [isOpenParen, ht] at ho

namespace Listed

theorem rereads_spread (h : Listed c n ts xs k cells) (hg : IsGap gap) :
    ReadsTo c n {} (spread gap k cells) xs := by
  obtain ⟨ys, g, hr, hx⟩ := h.rereads gap hg
  exact ⟨ys, g, hr.of_dropWhile, hx⟩

theorem spread_eq (h : Listed c n ts xs k cells) (hg : IsGap gap) : spread gap k cells = laid gap k cells ∧
    (0 < k ∨ cells = []) ∨ spread gap k cells = gap :: laid gap k cells ∧ k = 0 ∧
      ∀ us, ∀ t ∈ (laid gap k cells ++ us).head?, t.isBlank = false := by
  cases k with
  | succ k => exact .inl ⟨(laid_succ gap k cells).symm, .inl (Nat.succ_pos k)⟩
  | zero =>
    cases cells with
    | nil => exact .inl ⟨rfl, .inr rfl⟩
    | cons x r =>
      right
      have hi := h.good x List.mem_cons_self
      have hl : laid gap 0 (x :: r) = x.its ++ spread gap x.commas r := laid_cons hg hi x.commas r
      refine ⟨spread_zero_cons hg hi r, rfl, fun us t ht ↦ ?_⟩
      rw [hl, List.append_assoc, List.head?_append] at ht
      obtain ⟨u, vs, hu⟩ := List.exists_cons_of_ne_nil hi.ne
      rw [hu] at ht
      obtain rfl := Option.some.inj ht
      exact hi.head _ (by rw [hu]; rfl)

theorem relaid_spread {z vs ps : List Token} (h : Listed c n ts xs k cells) (hg : IsGap gap)
    (he : Ending z vs ps) : Relaid z (ts ++ vs) (spread gap k cells ++ ps) ∧
      Sealed (textOf (spread gap k cells ++ ps)) := by
  have hr := (h.relaid gap hg he).1
  rcases h.spread_eq hg with ⟨e, hk⟩ | ⟨e, -, hb⟩
  · rw [e]
    refine ⟨hr, ?_⟩
    rcases hk with hk | rfl
    · obtain ⟨k, rfl⟩ := Nat.exists_eq_succ_of_ne_zero (Nat.pos_iff_ne_zero.1 hk)
      rw [laid_succ, spread, List.replicate_succ, List.cons_append, List.cons_append]
      exact sealed_comma _
    · cases k with
      | zero => exact he.sealed
      | succ k =>
        rw [laid_succ, spread, List.replicate_succ, List.cons_append, List.cons_append]
        exact sealed_comma _
  · rw [e]
    exact ⟨hr.gap hg (hb ps), sealed_gap hg _⟩

/-- Commas where no item is complete are left out. -/
theorem skip_comma (h : Listed c n ts xs k cells) (hc : c.isPredicate = false) :
    Listed c n (comma :: ts) xs k cells where
  reads := by
    obtain ⟨ys, g, hr, hx⟩ := h.reads
    refine ⟨ys, g, ?_, hx⟩
    have hs : c ≠ .slot .condition := by
      rintro rfl
      cases hc
    have ht : Fragment.take? {} = none := rfl
    have := Reads.comma (c := c) (n := n) (f := {}) (t := comma) rfl rfl (by simpa [ht] using hr)
    simpa [hs, ht] using this
  rereads := h.rereads
  relaid gap hg he := by
    obtain ⟨h₁, -⟩ := h.relaid gap hg he
    exact ⟨.comma rfl h₁, fun hx ↦ by cases hx comma rfl⟩
  same t ht _ hx := by
    obtain rfl := Option.some.inj ht
    cases hx
  good := h.good
  shape := h.shape
  between := h.between

end Listed

/-- A comma and what follows it. -/
theorem Trails.comma {ys : List Text} (hg : g.isBalanced = true) (h : Listed c (n || g.take?.isSome) ts xs k cells)
    (hy : ys = (if c = .slot .condition then [[',']] else []) ++ xs) (hs : Shape c ys (k + 1) cells)
    (hc : c.isPredicate = false → cells ≠ []) : Trails c n g (QueryTemplate.comma :: ts) ys (k + 1) cells where
  reads := by
    obtain ⟨zs, f, hr, rfl⟩ := h.reads
    exact ⟨_, f, .comma rfl hg hr, by simp [hy]⟩
  rereads gap hgap := by
    obtain ⟨zs, f, hr, rfl⟩ := h.rereads_spread hgap
    exact ⟨_, f, .comma rfl hg hr, by simp [hy]⟩
  noGroup := ⟨(noGroup_cons rfl _).2 rfl, fun gap _ ↦ (noGroup_cons rfl _).2 rfl⟩
  relaid {z vs ps} gap hgap he := by
    obtain ⟨h₁, h₂⟩ := h.relaid_spread hgap he
    have hl : Loose QueryTemplate.comma (spread gap k cells ++ ps) := .inr (.inr ⟨h₂.1, by simp [QueryTemplate.comma]⟩)
    exact ⟨.keep rfl (by simp [QueryTemplate.comma]) hl (fun h ↦ by cases h) h₁, sealed_comma _, ahead_comma _, ahead_comma _⟩
  good := h.good
  shape := hs
  between hp := by rw [h.between hp, if_neg (hc hp)]

/-- A comma at the end is left out. -/
theorem Trails.drop_comma (hg : g.isBalanced = true) (hc : c.isPredicate = false)
    (h : Listed c (n || g.take?.isSome) ts [] 0 []) : Trails c n g (QueryTemplate.comma :: ts) [] 0 [] where
  reads := by
    have hs : c ≠ .slot .condition := by
      rintro rfl
      cases hc
    obtain ⟨zs, f, hr, hx⟩ := h.reads
    refine ⟨_, f, .comma rfl hg hr, ?_⟩
    rw [if_neg hs, List.append_assoc, List.append_assoc, ← hx]
    rfl
  rereads _ _ := ⟨[], g, .nil, by simp⟩
  noGroup := ⟨(noGroup_cons rfl _).2 rfl, fun _ _ ↦ noGroup_nil⟩
  relaid {z vs ps} gap hgap he :=
    ⟨.comma rfl (h.relaid gap hgap he).1, he.sealed, ahead_comma _, he.new⟩
  good := nofun
  shape := h.shape
  between _ := rfl

/-- Another predicate. -/
theorem Trails.conjunction (hg : g.isBalanced = true) (ht : t.kind = .conjunction) (hx : Lexical t)
    (hc : c.isPredicate = true) (h : Listed c n (t :: us) xs k cells) : Trails c n g (t :: us) xs 0 cells := by
  have hb : t.isBlank = false := by simp [Token.isBlank, ht]
  have hcom : t.isComma = false := by simp [isComma, ht]
  have hh := fun gap hg ↦ h.same t rfl hb hcom gap hg
  have hk : ∀ gap, IsGap gap → k = 0 ∧ ∃ r, laid gap k cells = t :: r := by
    intro gap hg
    obtain ⟨r, hr⟩ := List.head?_eq_some_iff.1 (hh gap hg)
    refine ⟨?_, r, hr⟩
    cases k with
    | zero => rfl
    | succ k =>
      rw [laid_succ, spread, List.replicate_succ, List.cons_append] at hr
      obtain ⟨rfl, -⟩ := List.cons.inj hr
      cases ht
  have hsp : IsGap Token.space := ⟨rfl, by simp [Token.space], by simp [Token.space, Text.isBlank]⟩
  obtain ⟨rfl, -⟩ := hk _ hsp
  have hlaid : ∀ gap, IsGap gap → spread gap 0 cells = gap :: laid gap 0 cells := by
    intro gap hg
    rcases h.spread_eq hg with ⟨-, h0 | rfl⟩ | ⟨e, -⟩
    · exact absurd h0 (Nat.lt_irrefl 0)
    · obtain ⟨-, r, hr⟩ := hk gap hg
      cases hr
    · exact e
  refine ⟨?_, fun gap hgap ↦ ?_, ⟨(noGroup_cons hb _).2 (by simp [isOpenParen, ht]), fun gap hgap ↦ ?_⟩,
    fun {z vs ps} gap hgap he ↦ ?_, h.good, h.shape, fun hp ↦ by rw [hc] at hp; cases hp⟩
  · obtain ⟨zs, f, hr, rfl⟩ := h.reads
    exact ⟨_, f, hr.of_conjunction ht hc hg, (List.append_assoc _ _ _).symm⟩
  · obtain ⟨zs, f, hr, rfl⟩ := h.rereads gap hgap
    obtain ⟨-, r, e⟩ := hk gap hgap
    rw [e] at hr
    rw [hlaid gap hgap, e]
    exact ⟨_, f, .blank hgap.isBlank (hr.of_conjunction ht hc hg), (List.append_assoc _ _ _).symm⟩
  · obtain ⟨-, r, e⟩ := hk gap hgap
    rw [hlaid gap hgap, e, noGroup_blank hgap.isBlank, noGroup_cons hb]
    simp [isOpenParen, ht]
  · obtain ⟨h₁, h₂⟩ := h.relaid_spread hgap he
    refine ⟨h₁, h₂, hx.choose_spec.ahead_conjunction ht, ?_⟩
    obtain ⟨-, r, e⟩ := hk gap hgap
    rw [hlaid gap hgap, e, List.cons_append, ahead_blank hgap.isBlank]
    exact hx.choose_spec.ahead_conjunction ht

/-- Commas before the first predicate. -/
theorem Listed.of_trails (h : Trails c n {} ts xs (k + 1) cells) (hc : c.isPredicate = true)
    (ht : ¬NoComma ts) : Listed c n ts xs (k + 1) cells where
  reads := h.reads
  rereads gap hgap := by
    rw [laid_succ]
    exact h.rereads gap hgap
  relaid gap hgap he := by
    rw [laid_succ]
    exact ⟨(h.relaid gap hgap he).relaid, fun hx ↦ absurd hx ht⟩
  same t hm hb hx := by
    refine absurd ?_ ht
    obtain ⟨us, rfl⟩ := List.head?_eq_some_iff.1 hm
    rw [NoComma, List.dropWhile_cons_of_neg (by simp [hb])]
    simpa using hx
  good := h.good
  shape := h.shape
  between hp := by rw [hc] at hp; cases hp

theorem Shape.marker (h : Shape (.slot .condition) xs k cells) :
    Shape (.slot .condition) ([','] :: xs) (k + 1) cells := by
  have hp : (Clause.slot .condition).isPredicate = true := rfl
  rw [Shape, if_pos hp] at h ⊢
  exact ⟨by rw [h.1, List.replicate_succ, List.cons_append], fun hc ↦ absurd rfl hc⟩

theorem Run.good {z orig tail its : List Token} (h : Run c n {} none ts orig tail its g) (hg : g.text ≠ [])
    (hts : ∀ t ∈ ts, Lexical t ∧ Steady t) (hz : ahead z = []) (hx : ∀ t ∈ z, t.kind ≠ .comment)
    (hl : Lexed (ts ++ z)) : Good its := by
  have hr := h.rewrites
  have ht : g.text = textOf its := hr.text
  obtain ⟨q, hq⟩ := hr.ends
  have hend : Ending (tail ++ z) (tail ++ z) [] := by
    refine .nil ?_
    cases h.rest with
    | done => exact hz
    | comma hc =>
      rw [eq_comma hc]
      exact ahead_comma _
    | @conjunction u us hk =>
      have hu := (hts u (by rw [h.split]; simp)).1
      exact hu.choose_spec.ahead_conjunction hk
  have hrel := (hr.relaid hend).1
  rw [List.append_nil, ← List.append_assoc, ← h.split] at hrel
  have hcom : ∀ t ∈ ts ++ z, t.kind ≠ .comment :=
    List.forall_mem_append.2 ⟨fun t ht ↦ (hts t ht).2.1, hx⟩
  refine ⟨?_, hrel.lexed hl, hrel.comment hcom, ht ▸ hq.solid, ht ▸ hr.marker rfl rfl, hr.head rfl⟩
  rintro rfl
  exact hg ht

theorem textOf_laid (hg : IsGap gap) (hgood : ∀ x ∈ cells, Good x.its) :
    textOf (laid gap 0 cells) = Text.join gap.text (cells.map fun x ↦ textOf x.tokens) := by
  induction cells with
  | nil => rfl
  | cons x cells ih =>
    have ih := ih fun y hy ↦ hgood y (List.mem_cons_of_mem _ hy)
    have hl := laid_cons hg (hgood x List.mem_cons_self) x.commas cells
    rw [show Cell.mk x.its x.commas = x from rfl] at hl
    rw [hl]
    cases cells with
    | nil => simp [spread, trail, Text.join, Cell.tokens]
    | cons y r =>
      have hs := spread_zero_cons hg (hgood y (List.mem_cons_of_mem _ List.mem_cons_self)) r
      rw [spread, List.replicate_zero, List.nil_append] at hs
      rw [List.map_cons] at ih
      rw [List.map_cons, List.map_cons, Text.join, ← ih, spread, hs, Cell.tokens]
      simp

theorem join_separated (hs : Separated cells) : Text.join [' '] (cells.map fun x ↦ textOf x.tokens) =
    Text.join ", ".toList (cells.map fun x ↦ textOf x.its) := by
  induction cells with
  | nil => rfl
  | cons x cells ih =>
    cases cells with
    | nil =>
      have hx : x.commas = 0 := hs
      simp [Text.join, Cell.tokens, hx]
    | cons y r =>
      have ih := ih hs.2
      rw [List.map_cons, List.map_cons] at ih
      rw [List.map_cons, List.map_cons, Text.join, ih, List.map_cons, List.map_cons, Text.join, Cell.tokens, hs.1]
      simp [comma]

theorem isGap_space : IsGap Token.space := ⟨rfl, by simp [Token.space], by simp [Token.space, Text.isBlank]⟩

/-- A list that opens no clause is read as a list. -/
theorem ReadsTo.parse_list (h : ReadsTo .root false {} ts xs) : parseTokens [] ts {} = .ok { root := xs } := by
  obtain ⟨ys, g, hr, rfl⟩ := h
  have hp : parseTokens [] (ts ++ []) {} = parseTokens [] [] ((Draft.addItems ys {}).hold g) :=
    hr.parse Fragment.clean_empty ⟨rfl, nofun⟩ rfl nofun
  rw [List.append_nil] at hp
  have hroot : ∀ (xs : List Text) (d : Draft), d.clause = .root →
      (d.addItems xs).query = { d.query with root := d.query.root ++ xs } := by
    intro xs
    induction xs with
    | nil =>
      rintro ⟨⟨r, a, s, f, j, u⟩, e, x⟩ -
      simp only [List.append_nil]
      rfl
    | cons x xs ih =>
      intro d hd
      have := ih (d.push x) (by rw [Draft.push_clause, hd])
      rw [Draft.addItems, List.foldl_cons, ← Draft.addItems, this, Draft.push, hd]
      simp [Query.push?, Query.modify?]
  rw [hp, parseTokens, Draft.flush_eq (hr.clean Fragment.clean_empty), Draft.addItems_hold, Draft.hold_hold,
    Draft.hold_fragment, ← Draft.addItems_append, Draft.hold_query, hroot _ _ rfl]
  rfl

theorem body_of_listed {b : List Token} (hb : Balanced b) (h : Listed .root false b xs k cells) :
    Body b { root := xs } (laid Token.space k cells) := by
  obtain rfl := h.between rfl
  have hs := h.shape
  rw [Shape, if_neg (by decide)] at hs
  refine ⟨h.reads.parse_list, (h.rereads _ isGap_space).parse_list, ?_, ?_, fun he _ ↦ (h.relaid _ isGap_space he).1⟩
  · have hbare : ({ root := xs } : Query).isBareRoot = true := by simp [Query.isBareRoot]
    rw [membershipText, if_pos hbare, textOf_laid isGap_space h.good, hs.1]
    rw [show Token.space.text = [' '] from rfl, join_separated hs.2]
    rfl
  · have hr := (h.relaid _ isGap_space (.nil (z := []) rfl)).1
    rw [List.append_nil, List.append_nil] at hr
    exact hr.balanced hb

/-- The tokens of a clause or of a list are written anew. -/
theorem exists_listed (h : Pending c n {} none 0 ts) : ∃ xs k cells, Listed c n ts xs k cells := by
  induction hl : ts.length using Nat.strongRecOn generalizing c n ts with
  | ind m ih =>
    have hbare : ∀ b, b.length < m → Pending .root false {} none 0 b → ∃ q b', Body b q b' := by
      intro b hb hp
      obtain ⟨xs, k, cells, hlist⟩ := ih b.length hb hp rfl
      exact ⟨_, _, body_of_listed hp.balanced hlist⟩
    obtain ⟨orig, tail, its, g, hrun, hg⟩ := exists_run hbare (Nat.le_of_eq hl) Fragment.clean_empty h
    obtain ⟨z, hz, hx, hlex⟩ := h.lexed
    have hlen : orig.length + tail.length = m := by
      rw [← hl, hrun.split, List.length_append]
    have htext : g.text = textOf its := hrun.rewrites.text
    by_cases hne : g.text = []
    · obtain rfl := hrun.rewrites.empty (htext ▸ hne)
      have hbl := hrun.rewrites.blanks rfl
      have htake : g.take? = none := by
        obtain ⟨q, hq⟩ := hrun.rewrites.ends
        rw [hq.take? hg, if_pos hne]
      rw [hrun.split]
      cases hrun.rest with
      | done => exact ⟨_, _, _, Listed.nil.blanks hbl⟩
      | @comma u us hu hc hp =>
        rw [htake, Option.isSome_none, Bool.or_false] at hp
        rw [List.length_cons] at hlen
        obtain ⟨xs, k, cells, hlist⟩ := ih us.length (by omega) hp rfl
        rw [eq_comma hu]
        cases hpred : c.isPredicate with
        | false => exact ⟨_, _, _, (hlist.skip_comma hpred).blanks hbl⟩
        | true =>
          have hcond : c = .slot .condition := by
            simp only [Clause.isPredicate, Bool.or_eq_true, decide_eq_true_eq] at hpred
            exact hpred.resolve_right hc.1
          subst hcond
          have ht : Fragment.take? {} = none := rfl
          have htr := Trails.comma (g := {}) (n := n) rfl (by simpa [ht] using hlist) rfl hlist.shape.marker nofun
          exact ⟨_, _, _, (Listed.of_trails htr rfl (fun hno ↦ by cases hno comma rfl)).blanks hbl⟩
      | conjunction _ _ hgne => exact absurd hne hgne
    · have hgood := hrun.good hne h.tokens hz hx hlex
      have hol : 0 < orig.length := by
        rw [List.length_pos_iff]
        exact fun e ↦ hgood.ne (hrun.rewrites.source e)
      rw [hrun.split]
      cases hrun.rest with
      | done => exact ⟨_, _, _, .cons hrun.rewrites hg hgood .nil⟩
      | @comma u us hu hc hp =>
        rw [List.length_cons] at hlen
        obtain ⟨xs, k, cells, hlist⟩ := ih us.length (by omega) hp rfl
        rw [eq_comma hu]
        cases hpred : c.isPredicate with
        | false =>
          obtain rfl := hlist.between hpred
          have hcond : c ≠ .slot .condition := by
            rintro rfl
            cases hpred
          have hs := hlist.shape
          cases cells with
          | nil =>
            rw [Shape, if_neg (by simp [hpred])] at hs
            obtain ⟨rfl, -⟩ := hs
            exact ⟨_, _, _, .cons hrun.rewrites hg hgood (.drop_comma hrun.balanced hpred hlist)⟩
          | cons x cells =>
            have htr := Trails.comma hrun.balanced hlist (by rw [if_neg hcond, List.nil_append])
              (by rw [Shape, if_neg (by simp [hpred])] at hs ⊢; exact hs) (fun _ ↦ by simp)
            exact ⟨_, _, _, .cons hrun.rewrites hg hgood htr⟩
        | true =>
          have hcond : c = .slot .condition := by
            simp only [Clause.isPredicate, Bool.or_eq_true, decide_eq_true_eq] at hpred
            exact hpred.resolve_right hc.1
          subst hcond
          exact ⟨_, _, _, .cons hrun.rewrites hg hgood (.comma hrun.balanced hlist rfl hlist.shape.marker nofun)⟩
      | @conjunction u us hu hc _ hp =>
        rw [List.length_cons] at hlen
        obtain ⟨xs, k, cells, hlist⟩ := ih (us.length + 1) (by omega) hp rfl
        exact ⟨_, _, _, .cons hrun.rewrites hg hgood
          (.conjunction hrun.balanced hu (hp.tokens u List.mem_cons_self).1 hc hlist)⟩

end QueryTemplate
