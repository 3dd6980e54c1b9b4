import QueryTemplate.Text.Basic

namespace QueryTemplate

/-- Takes a value off the start of a text, or fails. -/
abbrev Reader := StateT Text Option

namespace Reader

/-- What is not read yet. -/
def rest : Reader Text := get

def fail : Reader α := StateT.lift none

def ensure (p : Prop) [Decidable p] : Reader Unit := if p then pure () else fail

/-- A value that may be missing. -/
def need : Option α → Reader α
  | some a => pure a
  | none => fail

/-- The characters up to the first one that does not satisfy `p`. -/
def run (p : Char → Bool) : Reader Text := fun s ↦ some (s.takeWhile p, s.dropWhile p)

/-- At least one character, all of them satisfying `p`. -/
def run1 (p : Char → Bool) : Reader Text := do
  let s ← run p
  ensure (s ≠ [])
  return s

/-- At most `n` characters, all of them satisfying `p`. -/
def runUpTo (n : Nat) (p : Char → Bool) : Reader Text := fun s ↦
  let r := (s.take n).takeWhile p
  some (r, s.drop r.length)

/-- Exactly `n` characters, all of them satisfying `p`. -/
def exactly (n : Nat) (p : Char → Bool) : Reader Text := do
  let s ← runUpTo n p
  ensure (s.length = n)
  return s

/-- This text. -/
def literal (p : Text) : Reader Unit := fun s ↦ (Text.afterPrefix? p s).map fun r ↦ ((), r)

/-- A character that satisfies `p`. -/
def one (p : Char → Bool) : Reader Char
  | c :: s => if p c then some (c, s) else none
  | [] => none

/-- What `p` reads, or nothing if it fails. -/
def maybe (p : Reader α) : Reader (Option α) := fun s ↦
  match p s with
  | some (a, r) => some (some a, r)
  | none => some (none, s)

/-- Whether `p` reads something, which is then read. -/
def has (p : Reader α) : Reader Bool := return (← maybe p).isSome

/-- The first of two readers that does not fail. -/
def either (p q : Reader α) : Reader α := fun s ↦
  match p s with
  | some r => some r
  | none => q s

/-- The first of several readers that does not fail. -/
def firstOf : List (Reader α) → Reader α
  | [] => fail
  | p :: ps => either p (firstOf ps)

/-- What `p` reads again and again until it fails, at most `n` times. -/
def upTo (p : Reader α) : Nat → Reader (List α)
  | 0 => pure []
  | n + 1 => do
    match ← maybe p with
    | some a => return a :: (← upTo p n)
    | none => return []

/-- What `p` reads again and again until it fails. It reads something each time. -/
def many (p : Reader α) : Reader (List α) := do upTo p (← rest).length

/-- The end of the text. -/
def endOfText : Reader Unit := do ensure ((← rest) = [])

/-- The value of a whole text. -/
def all (p : Reader α) (s : Text) : Option α :=
  match p s with
  | some (a, []) => some a
  | _ => none

end Reader
end QueryTemplate
