import QueryTemplate.Query.Clause

namespace QueryTemplate

/-- The table that a query reads from at its innermost level. -/
structure Target where
  database : Text
  table : Text
  deriving DecidableEq, Repr

namespace Target

/-- What stands for the configured table. -/
def placeholder : Text := "$table"

/-- A name without quotes around it. -/
def unquote (s : Text) : Text :=
  let isQuote := fun c ↦ c = '`' || c = '"'
  ((s.dropWhile isQuote).reverse.dropWhile isQuote).reverse

/-- Reads a table name. A name without a database is in the configured one. -/
def ofReference? (database table reference : Text) : Option Target :=
  if reference = placeholder then some ⟨database, table⟩
  else
    match (Text.splitBy (· = '.') reference).map unquote with
    | [d, t] => some ⟨d, t⟩
    | [t] => some ⟨database, t⟩
    | _ => none

/-- The first table of the innermost query. -/
def resolve? (q : Query) (database table : Text) : Option Target := do
  let items ← q.innermost.items .source
  let item ← items.head?
  let reference ← (Text.words item).head?
  ofReference? database table reference

end Target
end QueryTemplate
