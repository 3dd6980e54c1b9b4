import QueryTemplate.Token.Grammar
import QueryTemplate.Error

namespace QueryTemplate

/-- The tokens of a text from its start, blank ones included, and the text at whose start there is
no token. -/
structure Scan where
  tokens : List Token
  rest : Text
  deriving DecidableEq, Repr

def scan (s : Text) : Scan :=
  match _h : Grammar.munch s with
  | none => ⟨[], s⟩
  | some (t, r) =>
    let q := scan r
    ⟨t :: q.tokens, q.rest⟩
termination_by s.length
decreasing_by exact Grammar.munch_shorter (by assumption)

theorem scan_of_munch {s r : Text} {t : Token} (h : Grammar.munch s = some (t, r)) :
    scan s = ⟨t :: (scan r).tokens, (scan r).rest⟩ := by
  rw [scan]
  split
  · simp_all
  · rename_i e
    obtain ⟨rfl, rfl⟩ := Prod.mk.inj (Option.some.inj (h.symm.trans e))
    rfl

theorem scan_of_munch_none {s : Text} (h : Grammar.munch s = none) : scan s = ⟨[], s⟩ := by
  rw [scan]
  split <;> simp_all

@[simp] theorem scan_nil : scan [] = ⟨[], []⟩ := by
  apply scan_of_munch_none
  cases h : Grammar.munch [] with
  | none => rfl
  | some p => exact absurd (Grammar.munch_shorter h) (Nat.not_lt_zero _)

/-- Nothing is lost: the tokens and the unread rest make up the text. -/
theorem textOf_scan (s : Text) : Token.textOf (scan s).tokens ++ (scan s).rest = s := by
  induction hn : s.length using Nat.strongRecOn generalizing s with
  | ind n ih =>
    cases h : Grammar.munch s with
    | none => simp [scan_of_munch_none h]
    | some p =>
      obtain ⟨t, r⟩ := p
      have hr := ih r.length (hn ▸ Grammar.munch_shorter h) r rfl
      rw [scan_of_munch h, Token.textOf_cons, List.append_assoc, hr]
      exact (Grammar.munch_eq_some h).2.symm

/-- The answer `a` if the text before `rest` was all of it. -/
def atEnd (rest : Text) (a : α) : Except Error α :=
  if rest = [] then .ok a else .error (.unreadable rest)

/-- All tokens of a text, which must consist of tokens. -/
def tokens? (s : Text) : Except Error (List Token) :=
  let q := scan s
  atEnd q.rest q.tokens

/-- All tokens of a text with their offsets; blank ones only if `keepBlank`. -/
def tokenize (keepBlank : Bool) (s : Text) : Except Error (List Located) :=
  (tokens? s).map fun ts ↦ (Token.place 0 ts).filter fun t ↦ keepBlank || !t.isBlank

/-- A place in a text from which it is read token by token. -/
structure Cursor where
  input : Text
  rest : Text
  keepBlank : Bool
  deriving DecidableEq, Repr

namespace Cursor

/-- The start of a text. -/
def start (input : Text) (keepBlank : Bool) : Cursor := ⟨input, input, keepBlank⟩

/-- The byte offset of the place. -/
def position (c : Cursor) : Nat := Text.bytes c.input - Text.bytes c.rest

/-- Skips `n` bytes without reading them. -/
def advance (n : Nat) (c : Cursor) : Cursor := { c with rest := Text.dropBytes n c.rest }

/-- Discards everything that is left. -/
def finish (c : Cursor) : Cursor := { c with rest := [] }

/-- The next token, if there is one, and the place after it. A blank token that is not kept is
skipped even when no token starts after it. -/
def next (c : Cursor) : Except Error (Option Located) × Cursor :=
  match _h : Grammar.munch c.rest with
  | none => (atEnd c.rest none, c)
  | some (t, r) =>
    let c' : Cursor := { c with rest := r }
    if t.isBlank && !c.keepBlank then c'.next else (.ok (some ⟨t, c.position⟩), c')
termination_by c.rest.length
decreasing_by exact Grammar.munch_shorter (by assumption)

/-- Like `next`, but a failure ends the reading for good. -/
def step (c : Cursor) : Except Error (Option Located) × Cursor :=
  match c.next with
  | (.error e, c) => (.error e, c.finish)
  | r => r

/-- Like `next`, but there must be a token; `expected` says which. -/
def expect (expected : Text) (c : Cursor) : Except Error Located × Cursor :=
  match c.next with
  | (.ok (some t), c') => (.ok t, c')
  | (.ok none, c') => (.error (.unexpected expected [] c.rest), c')
  | (.error e, c') => (.error e, c')

end Cursor
end QueryTemplate
