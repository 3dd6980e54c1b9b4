import Mathlib.Algebra.Ring.Nat
import QueryTemplate.Proofs.Token.Locality
namespace QueryTemplate

open Token Grammar

/-- The tokens lie in the text: none is empty, and each is what stands at its offset. -/
def Slices (s : Text) (ts : List Located) : Prop :=
  ∀ t ∈ ts, t.text ≠ [] ∧ ∃ a b, s = a ++ t.text ++ b ∧ t.offset = Text.bytes a

/-- Each offset is the length of the texts before it. -/
def Adjoining (ts : List Located) : Prop :=
  ∀ a t b, ts = a ++ t :: b → t.offset = (a.map fun u ↦ Text.bytes u.text).sum

theorem text_ne_nil_of_scan {s : Text} {t : Token} (h : t ∈ (scan s).tokens) : t.text ≠ [] := by
  induction hn : s.length using Nat.strongRecOn generalizing s with
  | ind n ih =>
    cases hm : munch s with
    | none =>
      rw [scan_of_munch_none hm] at h
      cases h
    | some p =>
      obtain ⟨u, r⟩ := p
      rw [scan_of_munch hm] at h
      rcases List.mem_cons.1 h with rfl | h
      · exact (munch_eq_some hm).1
      · exact ih r.length (hn ▸ munch_shorter hm) h rfl

section

variable {k : Bool} {n : Nat} {t : Located} {ts : List Token}

theorem map_place (n : Nat) (ts : List Token) : (place n ts).map Located.toToken = ts := by
  induction ts generalizing n with
  | nil => rfl
  | cons t ts ih => rw [place, List.map_cons, ih]

theorem bytes_textOf (ts : List Token) : Text.bytes (textOf ts) = (ts.map fun u ↦ Text.bytes u.text).sum := by
  induction ts with
  | nil => rfl
  | cons t ts ih => rw [textOf_cons, Text.bytes_append, ih, List.map_cons, List.sum_cons]

/-- A token is placed after the text of those before it. -/
theorem place_eq_append {a b : List Located} (h : place n ts = a ++ t :: b) :
    ts = a.map Located.toToken ++ t.toToken :: b.map Located.toToken ∧
      t.offset = n + (a.map fun u ↦ Text.bytes u.text).sum := by
  have hts : ts = a.map Located.toToken ++ t.toToken :: b.map Located.toToken := by
    rw [← map_place n ts, h, List.map_append, List.map_cons]
  refine ⟨hts, ?_⟩
  induction a generalizing n ts with
  | nil =>
    subst hts
    rw [List.map_nil, List.nil_append, place] at h
    exact congrArg Located.offset (List.cons.inj h).1.symm
  | cons u a ih =>
    subst hts
    rw [List.map_cons, List.cons_append, place] at h
    obtain ⟨-, h⟩ := List.cons.inj h
    rw [ih h rfl, List.map_cons, List.sum_cons, Nat.add_assoc]

theorem kept_true (n : Nat) (ts : List Token) : kept true n ts = place n ts :=
  List.filter_eq_self.2 fun _ _ ↦ rfl

theorem kept_false (n : Nat) (ts : List Token) : kept false n ts = (kept true n ts).filter (!·.isBlank) := by
  rw [kept_true]
  rfl

theorem slices_kept (s : Text) (k : Bool) : Slices s (kept k 0 (scan s).tokens) := by
  intro t ht
  obtain ⟨a, b, h⟩ := List.append_of_mem (List.mem_filter.1 ht).1
  obtain ⟨hs, ho⟩ := place_eq_append h
  refine ⟨text_ne_nil_of_scan (t := t.toToken) (by rw [hs]; simp), textOf (a.map Located.toToken),
    textOf (b.map Located.toToken) ++ (scan s).rest, ?_, ?_⟩
  · have hscan := textOf_scan s
    rw [hs, textOf_append, textOf_cons] at hscan
    simpa using hscan.symm
  · rw [ho, bytes_textOf, List.map_map, Nat.zero_add]
    rfl

theorem adjoining_kept (ts : List Token) : Adjoining (kept true 0 ts) := by
  intro a t b h
  rw [kept_true] at h
  rw [(place_eq_append h).2, Nat.zero_add]

end

namespace Cursor

variable {c c' : Cursor} {t : Located} {u : Token} {r : Text} {e : Error}

/-- What reading gives: the tokens, whether it reaches the end, and the place where it stops. -/
structure Transcript where
  tokens : List Located
  outcome : Except Error Unit
  place : Cursor

theorem next_shorter (h : c.next = (.ok (some t), c')) : c'.rest.length < c.rest.length := by
  induction hn : c.rest.length using Nat.strongRecOn generalizing c with
  | ind n ih =>
    cases hm : munch c.rest with
    | none =>
      rw [next_of_munch_none hm, atEnd] at h
      split at h <;> cases h
    | some p =>
      obtain ⟨u, r⟩ := p
      have hr : r.length < n := hn ▸ munch_shorter hm
      cases hk : c.keepBlank || !u.isBlank with
      | false =>
        rw [next_skip hm hk] at h
        exact Nat.lt_trans (ih r.length hr (c := { c with rest := r }) h rfl) hr
      | true =>
        rw [next_take hm hk] at h
        cases h
        exact hr

/-- Asks for the next token up to the end of the text or the first failure. -/
def readAll (c : Cursor) : Transcript :=
  match _h : c.next with
  | (.ok (some t), c') =>
    let r := c'.readAll
    { r with tokens := t :: r.tokens }
  | (.ok none, c') => ⟨[], .ok (), c'⟩
  | (.error e, c') => ⟨[], .error e, c'⟩
termination_by c.rest.length
decreasing_by exact next_shorter (by assumption)

theorem readAll_token (h : c.next = (.ok (some t), c')) :
    c.readAll = { c'.readAll with tokens := t :: c'.readAll.tokens } := by
  rw [readAll]
  split <;> simp_all

theorem readAll_end (h : c.next = (.ok none, c')) : c.readAll = ⟨[], .ok (), c'⟩ := by
  rw [readAll]
  split <;> simp_all

theorem readAll_error (h : c.next = (.error e, c')) : c.readAll = ⟨[], .error e, c'⟩ := by
  rw [readAll]
  split <;> simp_all

theorem readAll_congr (h : c.next = c'.next) : c.readAll = c'.readAll := by
  rcases hn : c'.next with ⟨e | t | _, c''⟩
  · rw [readAll_error (h.trans hn), readAll_error hn]
  · rw [readAll_end (h.trans hn), readAll_end hn]
  · rw [readAll_token (h.trans hn), readAll_token hn]

/-- Reading gives the tokens that are left at their offsets, and stops where no token starts. -/
theorem readAll_eq (hc : Text.bytes c.rest ≤ Text.bytes c.input) :
    c.readAll = ⟨kept c.keepBlank c.position (scan c.rest).tokens, atEnd (scan c.rest).rest (),
      { c with rest := (scan c.rest).rest }⟩ := by
  induction hn : c.rest.length using Nat.strongRecOn generalizing c with
  | ind n ih =>
    cases hm : munch c.rest with
    | none =>
      have hnext := next_of_munch_none hm
      rw [scan_of_munch_none hm]
      rw [atEnd] at hnext ⊢
      split at hnext
      · rw [readAll_end hnext, if_pos ‹_›]
        rfl
      · rw [readAll_error hnext, if_neg ‹_›]
        rfl
    | some p =>
      obtain ⟨u, r⟩ := p
      have hr := (munch_eq_some hm).2
      have hpos : position { c with rest := r } = c.position + Text.bytes u.text := by
        simp only [position, hr, Text.bytes_append] at hc ⊢
        omega
      have hle : Text.bytes r ≤ Text.bytes c.input := by
        rw [hr, Text.bytes_append] at hc
        omega
      have ih := ih r.length (hn ▸ munch_shorter hm) (c := { c with rest := r }) hle rfl
      rw [scan_of_munch hm]
      cases hk : c.keepBlank || !u.isBlank with
      | false => rw [readAll_congr (next_skip hm hk), ih, hpos, kept_cons_skip hk]
      | true => rw [readAll_token (next_take hm hk), ih, hpos, kept_cons hk]

theorem readAll_start (s : Text) (k : Bool) : (start s k).readAll =
    ⟨kept k 0 (scan s).tokens, atEnd (scan s).rest (), ⟨s, (scan s).rest, k⟩⟩ := by
  rw [readAll_eq (c := start s k) (Nat.le_refl _)]
  simp [position, start]

/-- The answer to the `n`-th request for a token, counted from zero, when a failure ends the reading. -/
def answer (c : Cursor) : Nat → Except Error (Option Located)
  | 0 => c.step.1
  | n + 1 => c.step.2.answer n

/-- The answers up to the end of the text, or to the first failure and with it. -/
def Transcript.answers (r : Transcript) : List (Except Error (Option Located)) :=
  r.tokens.map (fun t ↦ .ok (some t)) ++ match r.outcome with
    | .ok _ => []
    | .error e => [.error e]

theorem next_of_rest_nil (h : c.rest = []) : c.next = (.ok none, c) := by
  have hm : munch c.rest = none := by
    cases hm : munch c.rest with
    | none => rfl
    | some p =>
      have := munch_shorter hm
      rw [h] at this
      exact absurd this (Nat.not_lt_zero _)
  rw [next_of_munch_none hm, atEnd, if_pos h]

/-- Where nothing is left, no request gets a token. -/
theorem answer_of_rest_nil (h : c.rest = []) (n : Nat) : c.answer n = .ok none := by
  have hs : c.step = (.ok none, c) := by rw [step, next_of_rest_nil h]
  induction n with
  | zero => exact congrArg Prod.fst hs
  | succ n ih => rw [answer, hs, ih]

theorem rest_nil_of_next (h : c.next = (.ok none, c')) : c'.rest = [] := by
  induction hn : c.rest.length using Nat.strongRecOn generalizing c with
  | ind n ih =>
    cases hm : munch c.rest with
    | none =>
      rw [next_of_munch_none hm, atEnd] at h
      split at h
      · cases h
        assumption
      · cases h
    | some p =>
      obtain ⟨u, r⟩ := p
      cases hk : c.keepBlank || !u.isBlank with
      | false =>
        rw [next_skip hm hk] at h
        exact ih r.length (hn ▸ munch_shorter hm) (c := { c with rest := r }) h rfl
      | true =>
        rw [next_take hm hk] at h
        cases h

/-- Requests get the tokens, then the failure, if there is one, and then nothing for ever. -/
theorem answer_eq (c : Cursor) (n : Nat) : c.answer n = (c.readAll.answers[n]?).getD (.ok none) := by
  induction hl : c.rest.length using Nat.strongRecOn generalizing c n with
  | ind l ih =>
    rcases hn : c.next with ⟨e | t | t, c'⟩
    · have hs : c.step = (.error e, c'.finish) := by rw [step, hn]
      rw [readAll_error hn]
      cases n with
      | zero => exact congrArg Prod.fst hs
      | succ n =>
        rw [answer, hs, answer_of_rest_nil rfl]
        rfl
    · have hs : c.step = (.ok none, c') := by rw [step, hn]
      rw [readAll_end hn]
      cases n with
      | zero => exact congrArg Prod.fst hs
      | succ n =>
        rw [answer, hs, answer_of_rest_nil (rest_nil_of_next hn)]
        rfl
    · have hs : c.step = (.ok (some t), c') := by rw [step, hn]
      rw [readAll_token hn]
      cases n with
      | zero => exact congrArg Prod.fst hs
      | succ n => rw [answer, hs, ih _ (hl ▸ next_shorter hn) c' n rfl]; rfl

/-- A failure is the last answer. -/
theorem Transcript.length_answers_le {r : Transcript} {n : Nat} (h : r.answers[n]? = some (.error e)) :
    r.answers.length ≤ n + 1 := by
  obtain ⟨hn, ha⟩ := List.getElem?_eq_some_iff.1 h
  obtain ⟨ts, o, c⟩ := r
  by_cases hlt : n < ts.length
  · simp [answers, hlt] at ha
  · cases o with
    | ok _ =>
      simp only [answers, List.append_nil, List.length_map] at hn
      omega
    | error e =>
      simp only [answers, List.length_append, List.length_map, List.length_singleton]
      omega

/-- After the first failure no request gets a token. -/
theorem answer_after_error {n m : Nat} (h : c.answer n = .error e) (hm : n < m) : c.answer m = .ok none := by
  rw [answer_eq] at h ⊢
  have hlast : c.readAll.answers[n]? = some (.error e) := by
    cases ha : c.readAll.answers[n]? with
    | none =>
      rw [ha] at h
      cases h
    | some a =>
      rw [ha] at h
      exact congrArg some h
  have hle := c.readAll.length_answers_le hlast
  rw [List.getElem?_eq_none (by omega)]
  rfl

end Cursor

/-- Read to its end or to the first failure, a text is the texts of its tokens, white space included, and what is
left; a reader that skips white space sees the others of these tokens and ends alike, and one that goes on asking
gets nothing after a failure. -/
theorem readAll_tiles (s : Text) :
    let full := (Cursor.start s true).readAll
    let skipping := (Cursor.start s false).readAll
    (Slices s full.tokens ∧ Slices s skipping.tokens) ∧
      Adjoining full.tokens ∧
      (match full.outcome with
        | .ok _ => textOf (full.tokens.map Located.toToken) = s
        | .error e => ∃ rest, e = .unreadable rest ∧ textOf (full.tokens.map Located.toToken) ++ rest = s ∧
            full.place.rest = rest) ∧
      (skipping.tokens = full.tokens.filter (!·.isBlank) ∧ skipping.outcome = full.outcome ∧
        skipping.place.rest = full.place.rest) ∧
      ∀ k n e, (Cursor.start s k).answer n = .error e → ∀ m, n < m → (Cursor.start s k).answer m = .ok none := by
  simp only [Cursor.readAll_start]
  refine ⟨⟨slices_kept s true, slices_kept s false⟩, adjoining_kept _, ?_, ⟨kept_false _ _, trivial, trivial⟩,
    fun k n e h m hm ↦ Cursor.answer_after_error h hm⟩
  have hs := textOf_scan s
  rw [kept_true, map_place]
  by_cases hr : (scan s).rest = []
  · rw [hr, List.append_nil] at hs
    simpa [atEnd, hr] using hs
  · simpa [atEnd, hr] using hs

theorem readAll_tiles_unreadable : (Cursor.start "a § b" false).answer 1 = .error (.unreadable "§ b") ∧
    ∀ m, 1 < m → (Cursor.start "a § b" false).answer m = .ok none := by
  have h : (Cursor.start "a § b" false).answer 1 = .error (.unreadable "§ b") := by
    have hs : scan "a § b" = ⟨[⟨.identifier, "a"⟩, ⟨.blank, " "⟩], "§ b"⟩ := by decide +kernel
    rw [Cursor.answer_eq, Cursor.readAll_start, hs]
    rfl
  exact ⟨h, (readAll_tiles "a § b").2.2.2.2 false 1 _ h⟩

end QueryTemplate
