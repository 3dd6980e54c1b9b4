import QueryTemplate.Query.Basic
import QueryTemplate.Outline

namespace QueryTemplate.Query

def textsOutline (xs : List Text) : Outline := .list (xs.map .text)

/-- A query with all its clauses, also those that are not open. -/
def outline : Query → Outline
  | ⟨root, calls, slots, source, joins, unions⟩ =>
    let slot := fun s ↦ Outline.option ((slots.get s).map textsOutline)
    .record "Ast" [
      ("root", textsOutline root),
      ("macros", .map (callOutlines calls)),
      ("with", slot .bindings),
      ("select", slot .select),
      ("from", match source with
        | none => .option none
        | some s => .option (some (sourceOutline s))),
      ("aliases", slot .aliases),
      ("joins", .list (joinOutlines joins)),
      ("prewhere", slot .prewhere),
      ("where_clause", slot .condition),
      ("group_by", slot .groupBy),
      ("having", slot .having),
      ("order_by", slot .orderBy),
      ("limit", slot .limit),
      ("format", slot .format),
      ("union_all", match unions with
        | none => .option none
        | some qs => .option (some (.list (outlines qs))))]
where
  sourceOutline : Source Query → Outline
    | .table items => .wrap "Table" (textsOutline items)
    | .subquery q => .wrap "Subquery" q.outline
  callOutlines : List (Text × CallArgs Query) → List (Text × Outline)
    | [] => []
    | (n, .list items) :: r => (n, .wrap "List" (textsOutline items)) :: callOutlines r
    | (n, .statement q) :: r => (n, .wrap "Tree" q.outline) :: callOutlines r
  joinOutlines : List (Join Query) → List Outline
    | [] => []
    | ⟨kind, source, aliases, columns, predicates⟩ :: r =>
      .record "Join" [("kind", .text kind), ("source", sourceOutline source),
        ("aliases", textsOutline aliases), ("using", textsOutline columns),
        ("on", textsOutline predicates)] :: joinOutlines r
  outlines : List Query → List Outline
    | [] => []
    | q :: r => q.outline :: outlines r

end QueryTemplate.Query
