import QueryTemplate.Request.Datum

namespace QueryTemplate.Toml

/-- How a table came to be. -/
inductive Origin
  /-- By its own header. -/
  | header
  /-- By the header of a table inside. -/
  | implied
  /-- By a dotted key. -/
  | dotted
  deriving DecidableEq, Repr

/-- What stands under a key. -/
inductive Entry
  | value (d : Datum)
  | table (origin : Origin) (fields : List (Text × Entry))
  /-- An array of tables. The last one is still being written. -/
  | tables (earlier : List (List (Text × Entry))) (last : List (Text × Entry))

abbrev Fields := List (Text × Entry)

namespace Fields

/-- Changes what stands under a key. -/
def alter (k : Text) (f : Option Entry → Option Entry) : Fields → Option Fields
  | [] => (f none).map fun e ↦ [(k, e)]
  | (n, e) :: r =>
    if n = k then (f (some e)).map fun e ↦ (n, e) :: r else (alter k f r).map ((n, e) :: ·)

/-- Changes the table at the end of a path of headers. -/
def within (f : Fields → Option Fields) : List Text → Fields → Option Fields
  | [] => f
  | k :: ks => alter k fun
    | none => (within f ks []).map (.table .implied)
    | some (.table o fields) => (within f ks fields).map (.table o)
    | some (.tables earlier last) => (within f ks last).map (.tables earlier)
    | some (.value _) => none

/-- Enters a value under a dotted key. The table that gets it was opened by dotted keys alone. -/
def assign (d : Datum) : List Text → Fields → Option Fields
  | [] => fun _ ↦ none
  | [k] => alter k fun
    | none => some (.value d)
    | some _ => none
  | k :: l :: ks => alter k fun
    | none => (assign d (l :: ks) []).map (.table .dotted)
    | some (.table .dotted fields) => (assign d (l :: ks) fields).map (.table .dotted)
    | some (.table .implied fields) =>
      if ks = [] then none else (assign d (l :: ks) fields).map (.table .implied)
    | some (.tables earlier last) =>
      if ks = [] then none else (assign d (l :: ks) last).map (.tables earlier)
    | some (.table .header _) => none
    | some (.value _) => none

/-- Changes what stands under the last part of a path of headers. -/
def alterAt (path : List Text) (f : Option Entry → Option Entry) (fields : Fields) :
    Option Fields := do
  let k ← path.getLast?
  within (alter k f) path.dropLast fields

/-- Opens a table by its header, which it has only once. -/
def openTable (path : List Text) : Fields → Option Fields := alterAt path fun
  | none => some (.table .header [])
  | some (.table .implied fields) => some (.table .header fields)
  | some _ => none

/-- Opens the next table of an array. -/
def openNext (path : List Text) : Fields → Option Fields := alterAt path fun
  | none => some (.tables [] [])
  | some (.tables earlier last) => some (.tables (earlier ++ [last]) [])
  | some _ => none

end Fields

mutual

def Entry.datum : Entry → Datum
  | .value d => d
  | .table _ fields => .table (data fields)
  | .tables earlier last => .list (tables earlier ++ [.table (data last)])

def data : List (Text × Entry) → List (Text × Datum)
  | [] => []
  | (k, e) :: r => (k, e.datum) :: data r

def tables : List (List (Text × Entry)) → List Datum
  | [] => []
  | t :: r => .table (data t) :: tables r

end

end QueryTemplate.Toml
