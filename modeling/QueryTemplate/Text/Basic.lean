namespace QueryTemplate

/-- A text is the list of its characters, so that reading it is recursion on it. -/
abbrev Text := List Char

instance : Coe String Text := ⟨String.toList⟩

namespace Text

/-- The layout characters between tokens. -/
def isBlank (c : Char) : Bool := c = ' ' || c = '\t' || c = '\r' || c = '\n'

/-- White space of every script. -/
def isSpace (c : Char) : Bool :=
  let n := c.toNat
  (9 ≤ n && n ≤ 13) || n = 0x20 || n = 0x85 || n = 0xA0 || n = 0x1680 ||
    (0x2000 ≤ n && n ≤ 0x200A) || n = 0x2028 || n = 0x2029 || n = 0x202F || n = 0x205F ||
    n = 0x3000

theorem isSpace_of_isBlank {c : Char} (h : isBlank c = true) : isSpace c = true := by
  simp only [isBlank, Bool.or_eq_true, decide_eq_true_eq] at h
  rcases h with ((rfl | rfl) | rfl) | rfl <;> decide

/-- Letters and digits of ASCII and the underscore: what a name is made of. -/
def isNameChar (c : Char) : Bool := c.isAlphanum || c = '_'

/-- The length of a text in UTF-8. -/
def bytes : Text → Nat
  | [] => 0
  | c :: s => c.utf8Size + bytes s

@[simp] theorem bytes_nil : bytes [] = 0 := rfl

@[simp] theorem bytes_cons (c : Char) (s : Text) : bytes (c :: s) = c.utf8Size + bytes s := rfl

@[simp] theorem bytes_append (s t : Text) : bytes (s ++ t) = bytes s + bytes t := by
  induction s with
  | nil => simp
  | cons c s ih => simp [ih, Nat.add_assoc]

/-- The text after its first `n` bytes; a character that the cut would divide goes too. -/
def dropBytes : Nat → Text → Text
  | 0, s => s
  | _, [] => []
  | n, c :: s => dropBytes (n - c.utf8Size) s

def trimStart (s : Text) : Text := s.dropWhile isSpace

def trimEnd (s : Text) : Text := (s.reverse.dropWhile isSpace).reverse

def trim (s : Text) : Text := trimStart (trimEnd s)

/-- White space at the end of a text, the part that `trimEnd` takes away. -/
def spaceEnd (s : Text) : Text := (s.reverse.takeWhile isSpace).reverse

theorem trimEnd_append_spaceEnd (s : Text) : trimEnd s ++ spaceEnd s = s := by
  rw [trimEnd, spaceEnd, ← List.reverse_append, List.takeWhile_append_dropWhile,
    List.reverse_reverse]

theorem trim_sublist (s : Text) : (trim s).Sublist s := by
  have h : trimEnd s <+: s := ⟨spaceEnd s, trimEnd_append_spaceEnd s⟩
  exact (List.dropWhile_sublist isSpace).trans h.sublist

/-- The pieces between the characters that satisfy `p`, empty ones included. -/
def splitBy (p : Char → Bool) : Text → List Text
  | [] => [[]]
  | c :: s => if p c then [] :: splitBy p s else (splitBy p s).modifyHead (c :: ·)

/-- The runs of characters other than white space. -/
def words (s : Text) : List Text := (splitBy isSpace s).filter (· ≠ [])

/-- The parts one after another with `sep` between neighbours. -/
def join (sep : Text) : List Text → Text
  | [] => []
  | [s] => s
  | s :: t :: r => s ++ sep ++ join sep (t :: r)

/-- Letters of ASCII in lower case. -/
def lower (s : Text) : Text := s.map Char.toLower

/-- Every `c` of a text written as `r`. -/
def replaceChar (c : Char) (r : Text) (s : Text) : Text :=
  s.flatMap fun d ↦ if d = c then r else [d]

/-- The text after `p`, if it starts with `p`. -/
def afterPrefix? : (p s : Text) → Option Text
  | [], s => some s
  | c :: p, d :: s => if c = d then afterPrefix? p s else none
  | _ :: _, [] => none

theorem afterPrefix?_eq_some_iff {p s r : Text} : afterPrefix? p s = some r ↔ s = p ++ r := by
  induction p generalizing s with
  | nil => simp [afterPrefix?, eq_comm]
  | cons c p ih =>
    cases s with
    | nil => simp [afterPrefix?]
    | cons d s =>
      by_cases h : c = d
      · simp [afterPrefix?, h, ih]
      · simp [afterPrefix?, h, Ne.symm h]

/-- Decimal digits of a natural number. -/
def ofNat (n : Nat) : Text := Nat.toDigits 10 n

/-- Decimal digits of an integer, after a minus sign if it is negative. -/
def ofInt (n : Int) : Text := if n < 0 then '-' :: ofNat n.natAbs else ofNat n.natAbs

/-- The value of a run of ASCII digits. -/
def toNat (s : Text) : Nat := s.foldl (fun n c ↦ 10 * n + (c.toNat - '0'.toNat)) 0

end Text
end QueryTemplate
