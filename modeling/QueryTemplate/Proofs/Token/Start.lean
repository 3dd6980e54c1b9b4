import QueryTemplate.Proofs.Token.Word
namespace QueryTemplate
namespace Recognizer

/-- What a recognizer matches starts with a character of the class `p`. -/
structure Starts (p : Char → Bool) (a : Recognizer) : Prop where
  start : ∀ {s t}, a s = some t → ∃ c r, s = c :: r ∧ p c = true

variable {p q : Char → Bool} {a b : Recognizer}

theorem Starts.seq (h : Starts p a) : Starts p (a.seq b) where
  start e := by
    obtain ⟨u, hu, -⟩ := Option.bind_eq_some_iff.1 e
    exact h.start hu

theorem Starts.maybe_seq (ha : Starts p a) (hb : Starts p b) : Starts p ((maybe a).seq b) where
  start {s t} e := by
    rw [Recognizer.seq, maybe, Option.bind_some] at e
    cases h : a s with
    | some u => exact ha.start h
    | none =>
      rw [h] at e
      exact hb.start e

theorem Starts.oneOf {rs : List Recognizer} (h : ∀ r ∈ rs, Starts p r) : Starts p (oneOf rs) where
  start e := by
    obtain ⟨r, hr, hs⟩ := List.exists_of_findSome?_eq_some e
    exact (h r hr).start hs

theorem Starts.one : Starts p (one p) where
  start {s t} e := by
    cases s with
    | nil => cases e
    | cons c s =>
      simp only [Recognizer.one] at e
      split at e
      · exact ⟨c, s, rfl, by assumption⟩
      · cases e

theorem Starts.exactly {c : Char} {w : Text} (h : p c = true) : Starts p (exactly (c :: w)) where
  start e := ⟨c, _, Text.afterPrefix?_eq_some_iff.1 e, h⟩

theorem Starts.word {c : Char} {w : Text} (h : ∀ d : Char, d.toLower = c → p d = true) :
    Starts p (word (c :: w)) where
  start {s t} e := by
    cases s with
    | nil => cases e
    | cons d s =>
      simp only [Recognizer.word] at e
      split at e
      · exact ⟨d, s, rfl, h d (by assumption)⟩
      · cases e

theorem Starts.phrase {c : Char} {w : Text} {ws : List Text}
    (h : ∀ d : Char, d.toLower = c → p d = true) : Starts p (phrase ((c :: w) :: ws)) := by
  cases ws with
  | nil => exact .word h
  | cons v ws => exact .seq (.word h)

theorem Starts.mono (h : Starts p a) (hp : ∀ c, p c = true → q c = true) : Starts q a where
  start e := by
    obtain ⟨c, r, hs, hc⟩ := h.start e
    exact ⟨c, r, hs, hp c hc⟩

theorem Starts.eq_none (h : Starts p a) {c : Char} (hc : p c = false) (s : Text) :
    a (c :: s) = none := by
  cases e : a (c :: s) with
  | none => rfl
  | some t =>
    obtain ⟨d, r, hs, hd⟩ := h.start e
    obtain ⟨rfl, -⟩ := List.cons.inj hs
    simp [hc] at hd

end Recognizer

namespace Grammar

open Recognizer

/-- Whether a token that starts with `c` is a word. -/
def startsWord (c : Char) : Bool := c.isAlpha || c = '_'

theorem startsWord_of_lower {c : Char} (h : startsWord c.toLower = true) : startsWord c = true := by
  rcases Text.toLower_cases c with ⟨hc, -⟩ | ⟨-, e⟩
  · rw [startsWord, Text.isAlpha_iff.2 (.inl hc), Bool.true_or]
  · rwa [e] at h

theorem startsWord_of_toLower {c d : Char} (h : d.toLower = c) (hc : c.isLower = true) :
    startsWord d = true := by
  refine startsWord_of_lower ?_
  rw [h, startsWord, show c.isAlpha = (c.isUpper || c.isLower) from rfl, hc, Bool.or_true,
    Bool.true_or]

theorem starts_phrase {p : List Text} (h : ∃ w ∈ p.head?, ∃ c ∈ w.head?, c.isLower = true) :
    Starts startsWord (phrase p) := by
  obtain ⟨w, hw, c, hc, hl⟩ := h
  obtain ⟨ws, rfl⟩ := List.head?_eq_some_iff.1 hw
  obtain ⟨u, rfl⟩ := List.head?_eq_some_iff.1 hc
  exact .phrase fun d hd ↦ startsWord_of_toLower hd hl

theorem starts_phrases {ps : List (List Text)}
    (h : ∀ p ∈ ps, ∃ w ∈ p.head?, ∃ c ∈ w.head?, c.isLower = true) :
    Starts startsWord (oneOf (ps.map phrase)) := by
  refine .oneOf fun r hr ↦ ?_
  obtain ⟨p, hp, rfl⟩ := List.mem_map.1 hr
  exact starts_phrase (h p hp)

theorem starts_words {v w : Text} {c d : Char} (hc : c.isLower = true) (hd : d.isLower = true) :
    Starts startsWord ((oneOf [word (c :: v), word (d :: w)]).seq boundary) := by
  refine .seq (.oneOf fun r hr ↦ ?_)
  simp only [List.mem_cons, List.not_mem_nil, or_false] at hr
  rcases hr with rfl | rfl
  · exact .word fun e he ↦ startsWord_of_toLower he hc
  · exact .word fun e he ↦ startsWord_of_toLower he hd

theorem starts_clause : Starts startsWord clause := by
  refine .seq (.oneOf fun r hr ↦ ?_)
  rcases List.mem_append.1 hr with hr | hr
  · obtain ⟨p, hp, rfl⟩ := List.mem_map.1 hr
    have h : ∀ q ∈ clausePhrases, ∃ w ∈ q.head?, ∃ c ∈ w.head?, c.isLower = true := by decide
    exact starts_phrase (h p hp)
  · obtain rfl := List.mem_singleton.1 hr
    exact .seq (.word fun d hd ↦ startsWord_of_toLower hd (by decide))

theorem starts_join : Starts startsWord join := by
  have h : Starts startsWord ((word "join").seq boundary) :=
    .seq (.word fun d hd ↦ startsWord_of_toLower hd (by decide))
  exact .maybe_seq (.seq (starts_phrases (by decide))) <|
    .maybe_seq (.seq (starts_phrases (by decide))) <|
    .maybe_seq (.seq (starts_phrases (by decide))) <|
    .maybe_seq (.seq (starts_phrases (by decide))) h

/-- The characters that a token of a class may start with. -/
def startsKind : Kind → Char → Bool
  | .blank, c => Text.isBlank c
  | .comment, c => c = '-' || c = '/'
  | .aggregation, c | .placeholder, c => c = '$'
  | .string, c => c = '\'' || c = '`' || c = '"'
  | .number, c => c.isDigit || c = '.'
  | .operator, c => operators.any (·.head? = some c)
  | .opening, c => c = '(' || c = '['
  | .closing, c => c = ')' || c = ']'
  | .punctuation, c => c = ',' || c = ':' || c = '?' || c = ';' || c = '{' || c = '}'
  | _, c => startsWord c

theorem starts_of_mem_classes {c : Kind × Recognizer} (h : c ∈ classes) :
    Starts (startsKind c.1) c.2 := by
  simp only [classes, List.mem_cons, List.not_mem_nil, or_false] at h
  rcases h with rfl | rfl | rfl | rfl | rfl | rfl | rfl | rfl | rfl | rfl | rfl | rfl | rfl | rfl |
    rfl | rfl
  · exact .seq .one
  · refine .oneOf fun r hr ↦ ?_
    simp only [List.mem_cons, List.not_mem_nil, or_false] at hr
    rcases hr with rfl | rfl <;> exact .seq (.exactly (by decide))
  · exact .seq (.exactly (by decide))
  · exact starts_clause
  · exact starts_join
  · exact starts_words (by decide) (by decide)
  · exact starts_words (by decide) (by decide)
  · exact .seq (starts_phrases (by decide))
  · refine .oneOf fun r hr ↦ ?_
    simp only [List.mem_cons, List.not_mem_nil, or_false] at hr
    rcases hr with rfl | rfl <;> exact .seq (.exactly (by decide))
  · refine .oneOf fun r hr ↦ ?_
    simp only [List.mem_cons, List.not_mem_nil, or_false] at hr
    rcases hr with rfl | rfl | rfl <;> exact .seq (Starts.one.mono (by simp [startsKind]))
  · have hd : Starts (startsKind .number) digits :=
      .seq (Starts.one.mono fun c hc ↦ by simp [startsKind, hc])
    refine .oneOf fun r hr ↦ ?_
    simp only [List.mem_cons, List.not_mem_nil, or_false] at hr
    rcases hr with rfl | rfl | rfl | rfl | rfl
    · exact .seq (.exactly (by decide))
    · exact .seq hd
    · exact .seq (.exactly (by decide))
    · exact .seq hd
    · exact hd
  · exact .seq .one
  · refine .oneOf fun r hr ↦ ?_
    obtain ⟨w, hw, rfl⟩ := List.mem_map.1 hr
    cases w with
    | nil => exact absurd hw (by decide)
    | cons c w => exact .exactly (List.any_eq_true.2 ⟨_, hw, by simp⟩)
  · exact .one
  · exact .one
  · exact .one

theorem munch_eq_some_iff {u r : Text} {k : Kind} : munch (u ++ r) = some (⟨k, u⟩, r) ↔
    ∃ as b bs, classes = as ++ (k, b) :: bs ∧ b (u ++ r) = some r ∧
      ∀ a ∈ as, a.2 (u ++ r) = none := by
  rw [munch, List.findSome?_eq_some_iff]
  constructor
  · rintro ⟨as, ⟨k', b⟩, bs, hc, hb, ha⟩
    obtain ⟨r', hr, he⟩ := Option.map_eq_some_iff.1 hb
    obtain ⟨hk, rfl⟩ := Prod.mk.inj he
    obtain ⟨rfl, -⟩ := Token.mk.inj hk
    exact ⟨as, b, bs, hc, hr, fun a h ↦ Option.map_eq_none_iff.1 (ha a h)⟩
  · rintro ⟨as, b, bs, hc, hb, ha⟩
    refine ⟨as, (k, b), bs, hc, ?_, fun a h ↦ Option.map_eq_none_iff.2 (ha a h)⟩
    simp [hb]

/-- The first token is of the class `k` if this class matches and no one before it does. -/
theorem munch_of_class {as bs : List (Kind × Recognizer)} {b : Recognizer} {k : Kind} {u r : Text}
    (hc : classes = as ++ (k, b) :: bs) (hb : b (u ++ r) = some r)
    (ha : ∀ a ∈ as, (u ++ r).head?.any (startsKind a.1) = true → a.2 (u ++ r) = none) :
    munch (u ++ r) = some (⟨k, u⟩, r) := by
  refine munch_eq_some_iff.2 ⟨as, b, bs, hc, hb, fun a h ↦ ?_⟩
  have hm : a ∈ classes := by simp [hc, h]
  cases e : a.2 (u ++ r) with
  | none => rfl
  | some t =>
    obtain ⟨c, s, hs, hp⟩ := (starts_of_mem_classes hm).start e
    rw [ha a h (by simp [hs, hp])] at e
    cases e

/-- An entry of a list without repeated keys stands at one place. -/
theorem eq_of_nodup_keys {α β : Type} {as as' bs bs' : List (α × β)} {k : α} {b b' : β}
    (h : ((as ++ (k, b) :: bs).map Prod.fst).Nodup)
    (e : as ++ (k, b) :: bs = as' ++ (k, b') :: bs') : as = as' ∧ b = b' := by
  induction as generalizing as' with
  | nil =>
    cases as' with
    | nil => simpa using And.left (List.cons.inj e)
    | cons x xs =>
      obtain ⟨rfl, hx⟩ := List.cons.inj e
      simp [hx] at h
  | cons a as ih =>
    cases as' with
    | nil =>
      obtain ⟨rfl, hx⟩ := List.cons.inj e
      simp at h
    | cons x xs =>
      obtain ⟨rfl, hx⟩ := List.cons.inj e
      obtain ⟨rfl, h'⟩ := ih (List.nodup_cons.1 h).2 hx
      exact ⟨rfl, h'⟩

theorem class_of_munch {as bs : List (Kind × Recognizer)} {b : Recognizer} {k : Kind} {u r : Text}
    (h : munch (u ++ r) = some (⟨k, u⟩, r)) (hc : classes = as ++ (k, b) :: bs) :
    b (u ++ r) = some r ∧ ∀ a ∈ as, a.2 (u ++ r) = none := by
  obtain ⟨as', b', bs', hc', hb, ha⟩ := munch_eq_some_iff.1 h
  have hn : (classes.map Prod.fst).Nodup := by decide
  obtain ⟨rfl, rfl⟩ := eq_of_nodup_keys (hc ▸ hn) (hc.symm.trans hc')
  exact ⟨hb, ha⟩

end Grammar
end QueryTemplate
