import QueryTemplate.Proofs.Filter.Parsed
import QueryTemplate.Proofs.Query.Filling
namespace QueryTemplate

open Token Fragment

variable {n : Bool} {f g : Fragment} {gs ts : List Token} {p t : Token} {xs : List Text}

/-- The predicates of a condition behind a filter. -/
def behindFilter (filter : Text) : Option (List Text) → List Text
  | some (x :: xs) => filter :: ("AND " ++ x) :: xs
  | _ => [filter]

theorem Pushes.behindAnd (h : Pushes (.slot .condition) n f t) : Pushes (.slot .condition) n f.behindAnd t :=
  ⟨h.kind, h.inner, h.conjunction, nofun⟩

theorem Fragment.Trimmed.take?_eq (h : f.Trimmed) (hf : f.text ≠ []) :
    f.take? = some f.text ∧ f.behindAnd.take? = some ("AND " ++ f.text) := by
  rw [h.take?, if_neg hf, (h.behindAnd hf).take?, if_neg (by simp [Fragment.behindAnd])]
  exact ⟨rfl, rfl⟩

/-- The items that tokens complete after an expression come to others that only have an `AND` before the first. -/
def LinksTo (n : Bool) (f : Fragment) (ts : List Token) (xs : List Text) : Prop :=
  ∃ x ys, xs = x :: ys ∧ ReadsTo (.slot .condition) n f ts (("AND " ++ x) :: ys)

/-- An expression behind `AND` is read on as it is by itself; the item that it becomes keeps the `AND`. -/
theorem Reads.behindAnd (h : Reads (.slot .condition) n f ts xs g) (hf : f.text ≠ []) (ht : f.Trimmed)
    (hl : ∀ t ∈ ts, Lexical t ∧ t.kind ≠ .comment) : LinksTo n f.behindAnd ts (xs ++ g.take?.toList) := by
  induction h with
  | nil =>
    obtain ⟨hx, hy⟩ := ht.take?_eq hf
    exact ⟨_, [], by simp [hx]; rfl, [], _, .nil, by simp [hy]⟩
  | blank hb _ ih =>
    obtain ⟨x, ys, e, zs, k, h, e'⟩ := ih hf ht (List.forall_mem_cons.1 hl).2
    exact ⟨x, ys, e, zs, k, .blank hb h, e'⟩
  | @token n f t ts xs g hp _ ih =>
    obtain ⟨⟨hlex, hk⟩, hl⟩ := List.forall_mem_cons.1 hl
    obtain ⟨x, ys, e, zs, k, h, e'⟩ := ih (by simp [Fragment.pushToken, hlex.text_ne_nil]) (ht.pushToken hlex hp.kind.1 hk) hl
    rw [← pushToken_behindAnd hf] at h
    exact ⟨x, ys, e, zs, k, .token hp.behindAnd h, e'⟩
  | @comma n f t ts xs g hcomma hb h _ =>
    obtain ⟨hx, hy⟩ := ht.take?_eq hf
    have hnext := Reads.comma (c := .slot .condition) (f := f.behindAnd) hcomma hb (by rw [hy]; rwa [hx] at h)
    exact ⟨f.text, _, by simp [hx]; rfl, _, g, hnext, by simp [hy]⟩
  | @conjunction n f t ts xs g hconj hpred hb h _ =>
    obtain ⟨hx, hy⟩ := ht.take?_eq hf
    have hnext := Reads.conjunction (c := .slot .condition) (f := f.behindAnd) hconj hpred hb h
    exact ⟨f.text, _, by simp [hx]; rfl, _, g, hnext, by simp [hy]⟩
  | @member n f t gs o b e ts q xs g hm hg ho he hb hq _ ih =>
    obtain ⟨⟨hlex, hk⟩, hl⟩ := List.forall_mem_cons.1 hl
    have hne : (f.pushToken t).text ≠ [] := by simp [Fragment.pushToken, hlex.text_ne_nil]
    have hpush := ht.pushToken hlex (by simp [hm]) hk
    obtain ⟨x, ys, e, zs, k, h, e'⟩ := ih (by simp [Fragment.pushText, hne]) (hpush.pushMember hne q) fun u hu ↦ hl u (by simp [hu])
    rw [← pushText_behindAnd, ← pushToken_behindAnd hf] at h
    exact ⟨x, ys, e, zs, k, .member hm hg ho he hb hq h, e'⟩
  | @alone n f t ts xs g hm ho _ ih =>
    obtain ⟨⟨hlex, hk⟩, hl⟩ := List.forall_mem_cons.1 hl
    obtain ⟨x, ys, e, zs, k, h, e'⟩ := ih (by simp [Fragment.pushToken, hlex.text_ne_nil]) (ht.pushToken hlex (by simp [hm]) hk) hl
    rw [← pushToken_behindAnd hf] at h
    exact ⟨x, ys, e, zs, k, .alone hm ho h, e'⟩
  | raw hsource => cases hsource

/-- A condition goes on behind `AND` as it starts by itself. -/
theorem ReadsTo.behindAnd (h : ReadsTo (.slot .condition) n {} (t :: ts) xs) (ht : t.startsPredicate = true)
    (hb : t.isBlank = false) (hc : t.isCloseParen = false) (hl : ∀ u ∈ t :: ts, Lexical u ∧ u.kind ≠ .comment) :
    LinksTo n (Fragment.pushToken .and {}) (t :: ts) xs := by
  obtain ⟨⟨hlex, hcode⟩, hl⟩ := List.forall_mem_cons.1 hl
  have hpush : Fragment.pushToken t (Fragment.pushToken .and {}) = (Fragment.pushToken t {}).behindAnd := by
    have hs : needsSpace (Fragment.pushToken .and {}).text t = true := needsSpace_and hlex ht hc
    rw [Fragment.pushToken, hs]
    rfl
  have hne : (Fragment.pushToken t {}).text ≠ [] := by simp [Fragment.pushToken, hlex.text_ne_nil]
  have htrim := trimmed_empty.pushToken hlex (by simpa [Token.isBlank] using hb) hcode
  simp only [startsPredicate, Bool.and_eq_true, decide_eq_true_eq] at ht
  obtain ⟨ys, g, h, rfl⟩ := h
  cases h with
  | blank hblank => simp [hblank] at hb
  | token hp h =>
    have hand : Pushes (.slot .condition) n (Fragment.pushToken .and {}) t :=
      ⟨hp.kind, fun hk ↦ absurd (hp.inner hk) (by decide), fun hk ↦ absurd hk ht.1.1.1.1.1, fun _ hc ↦ absurd hc (by decide)⟩
    obtain ⟨x, ys, e, zs, k, h, e'⟩ := h.behindAnd hne htrim hl
    rw [← hpush] at h
    exact ⟨x, ys, e, zs, k, .token hand h, e'⟩
  | comma hcomma =>
    simp only [isComma, Bool.and_eq_true, decide_eq_true_eq] at hcomma
    exact absurd hcomma.2 ht.1.1.1.2
  | conjunction hk => exact absurd hk ht.1.1.1.1.1
  | @member _ _ _ gs o b e ts q _ _ hm hg ho hclose hbal hq h =>
    obtain ⟨x, ys, e, zs, k, h, e'⟩ :=
      h.behindAnd (by simp [Fragment.pushText, hne]) (htrim.pushMember hne q) fun u hu ↦ hl u (by simp [hu])
    rw [← pushText_behindAnd, ← hpush] at h
    exact ⟨x, ys, e, zs, k, .member hm hg ho hclose hbal hq h, e'⟩
  | alone hm ho h =>
    obtain ⟨x, ys, e, zs, k, h, e'⟩ := h.behindAnd hne htrim hl
    rw [← hpush] at h
    exact ⟨x, ys, e, zs, k, .alone hm ho h, e'⟩
  | raw hsource => cases hsource

namespace IsFilter

theorem pushes (hp : IsFilter p) : Pushes (.slot .condition) n {} p :=
  ⟨by simp [hp.kind], by simp [hp.kind, isComma], by simp [hp.kind], nofun⟩

theorem take? (hp : IsFilter p) : (Fragment.pushToken p {}).take? = some p.text := by
  have hx : (Fragment.pushToken p {}).text = p.text := rfl
  rw [(trimmed_empty.pushToken hp.lexical (by simp [hp.kind]) (by simp [hp.kind])).take?, hx, if_neg hp.lexical.text_ne_nil]

/-- A filter is a condition by itself. -/
theorem readsTo (hp : IsFilter p) : ReadsTo (.slot .condition) false {} [space, p] (behindFilter p.text none) :=
  ⟨[], Fragment.pushToken p {}, .blank rfl (.token hp.pushes .nil), by simp [hp.take?, behindFilter]⟩

/-- Put in front of a condition, it is the first of its predicates. -/
theorem readsTo_behind (hp : IsFilter p) (h : ReadsTo (.slot .condition) false {} (t :: ts) xs) (hg : ∀ g ∈ gs, g.isBlank = true)
    (ht : t.startsPredicate = true) (hb : t.isBlank = false) (hc : t.isCloseParen = false)
    (hl : ∀ u ∈ t :: ts, Lexical u ∧ u.kind ≠ .comment) :
    ReadsTo (.slot .condition) false {} (space :: p :: space :: Token.and :: (gs ++ t :: ts)) (behindFilter p.text (some xs)) := by
  have hfront : ∀ {ys g}, Reads (.slot .condition) false (Fragment.pushToken .and {}) (t :: ts) ys g →
      Reads (.slot .condition) false {} (space :: p :: space :: Token.and :: (gs ++ t :: ts)) (p.text :: ys) g := by
    intro ys g h
    have hgap : Reads (.slot .condition) false (Fragment.pushToken .and {}) (gs ++ t :: ts) ys g := by
      induction gs with
      | nil => exact h
      | cons g gs ih =>
        obtain ⟨hg, hgs⟩ := List.forall_mem_cons.1 hg
        exact .blank hg (ih hgs)
    have hf : (Fragment.pushToken p {}).isBalanced = true := by
      simp [Fragment.isBalanced, Fragment.pushToken, isOpenParen, isCloseParen, hp.kind]
    have hand := Reads.conjunction (c := .slot .condition) (t := Token.and) (f := Fragment.pushToken p {}) rfl rfl hf hgap
    rw [hp.take?] at hand
    exact .blank rfl (.token hp.pushes (.blank rfl hand))
  obtain ⟨x, ys, rfl, zs, g, hr, e⟩ := h.behindAnd ht hb hc hl
  exact ⟨p.text :: zs, g, hfront hr, congrArg (p.text :: ·) e⟩

end IsFilter
end QueryTemplate
