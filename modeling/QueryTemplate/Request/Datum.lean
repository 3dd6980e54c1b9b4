import QueryTemplate.Text.Basic

namespace QueryTemplate

/-- The data that requests are written in. -/
inductive Datum
  | null
  | bool (b : Bool)
  | integer (n : Int)
  | number (x : Float)
  | text (s : Text)
  | list (items : List Datum)
  | table (fields : List (Text × Datum))
  /-- A date or a time of day; no field has one. -/
  | date
  deriving Inhabited

namespace Datum

def bool? : Datum → Option Bool
  | bool b => some b
  | _ => none

def text? : Datum → Option Text
  | text s => some s
  | _ => none

/-- A natural number below `2 ^ 32`. -/
def count? : Datum → Option Nat
  | integer n => if 0 ≤ n ∧ n < UInt32.size then some n.toNat else none
  | _ => none

/-- What `f` reads, or null. -/
def nullable? (f : Datum → Option α) : Datum → Option (Option α)
  | null => some none
  | d => (f d).map some

def list? (f : Datum → Option α) : Datum → Option (List α)
  | list items => items.mapM f
  | _ => none

/-- The fields of a record by name. A list holds the fields in the order of `names`. -/
def record? (names : List Text) : Datum → Option (List (Text × Datum))
  | table fields => some fields
  | list items => if items.length ≤ names.length then some (names.zip items) else none
  | _ => none

/-- A field that must be there. -/
def field (fields : List (Text × Datum)) (name : Text) (f : Datum → Option α) : Option α :=
  (fields.lookup name).bind f

/-- A field with a value for its absence. -/
def fieldOr (fields : List (Text × Datum)) (name : Text) (f : Datum → Option α) (a : α) :
    Option α :=
  match fields.lookup name with
  | some d => f d
  | none => some a

end Datum
end QueryTemplate
