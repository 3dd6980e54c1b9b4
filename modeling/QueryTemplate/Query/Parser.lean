import QueryTemplate.Query.JoinReader
import QueryTemplate.Query.Printer

namespace QueryTemplate

open Token

/-- Arguments that were read as a query: expressions, if they are nothing else. -/
def CallArgs.ofQuery (q : Query) : CallArgs Query :=
  if q.isBareRoot then .list q.root else .statement q

/-- The right side of `IN`: a list as it is, a statement over several lines. -/
def membershipText (q : Query) : Text :=
  if q.isBareRoot then " (" ++ Text.join ", " q.root ++ ")"
  else " (\n" ++ q.printAt Query.tab ++ "\n)"

/-- Reads the tokens of a query into a draft; no token starts at `rest`, which follows them. What
parentheses enclose is read as a query of its own after `FROM`, `IN`, a join or a macro. -/
def parseTokens (rest : Text) (ts : List Token) (d : Draft) : Except Error Query :=
  match ts with
  | [] => atEnd rest d.flush.query
  | t :: ts =>
    match d.action t with
    | .skip => parseTokens rest ts d
    | .pushToken => parseTokens rest ts (d.pushToken t)
    | .pushComment => parseTokens rest ts (d.pushComment t)
    | .openClause c => parseTokens rest ts (d.openClause c)
    | .comma => parseTokens rest ts d.comma
    | .conjunction => parseTokens rest ts (d.conjunction t)
    | .readUnions => do
      atEnd rest ()
      let branches ← (splitOutside isUnionAll ts).attach.mapM fun b ↦ parseTokens [] b.1 {}
      return { d.flush.query with unions := some branches }
    | .readCall =>
      match _h : callGroup t.text rest ts with
      | .error e => .error e
      | .ok (body, us) => do
        let q ← parseTokens [] body {}
        parseTokens rest us (d.flush.addCall t.text (.ofQuery q))
    | .sourceParen =>
      if !d.fragment.endsInTableFunction && !d.sourceIsEmpty then parseTokens rest ts (d.pushToken t)
      else
        match _h : group rest ts with
        | .error e => .error e
        | .ok (body, us) =>
          if d.fragment.endsInTableFunction then
            parseTokens rest us (d.pushText ('(' :: textOf body ++ ")"))
          else do
            let q ← parseTokens [] body {}
            parseTokens rest us (d.setSubquery q)
    | .membership =>
      match _h : ts.dropWhile isBlank with
      | [] => parseTokens rest [] (d.pushToken t)
      | o :: us =>
        if o.isOpenParen then
          match _h : group rest us with
          | .error e => .error e
          | .ok (body, us) => do
            let q ← parseTokens [] body {}
            parseTokens rest us ((d.pushToken t).pushText (membershipText q))
        else parseTokens rest (o :: us) (d.pushToken t)
    | .readJoin =>
      match _h : Join.readSource t rest ts with
      | .error e => .error e
      | .ok (.arrays items, us) =>
        parseTokens rest us (d.flush.addJoin { kind := t.keyword, source := .table items })
      | .ok (.table name, us) =>
        match _h : Join.readTail { kind := t.keyword, source := .table [name] } rest us with
        | .error e => .error e
        | .ok (j, us) => parseTokens rest us (d.flush.addJoin j)
      | .ok (.subquery body, us) => do
        let q ← parseTokens [] body {}
        match _h : Join.readTail { kind := t.keyword, source := .subquery q } rest us with
        | .error e => .error e
        | .ok (j, us) => parseTokens rest us (d.flush.addJoin j)
termination_by ts.length
decreasing_by
  all_goals simp_wf
  · have := (sublist_of_mem_splitOutside b.2).length_le
    omega
  · have := callGroup_length _h
    omega
  · have := callGroup_length _h
    omega
  · have := group_length _h
    omega
  · have := group_length _h
    omega
  · have := group_length _h
    omega
  · have := (List.dropWhile_suffix isBlank (l := ts)).length_le
    have := group_length _h
    simp_all only [List.length_cons]
    omega
  · have := (List.dropWhile_suffix isBlank (l := ts)).length_le
    have := group_length _h
    simp_all only [List.length_cons]
    omega
  · have := (List.dropWhile_suffix isBlank (l := ts)).length_le
    simp_all only [List.length_cons]
    omega
  · have : us.length ≤ ts.length := Join.leaves_readSource _ _ _ _ _h
    omega
  · have := Join.leaves_readSource _ _ _ _ ‹Join.readSource t rest ts = _›
    have := Join.leaves_readTail _ _ _ _ _h
    simp_all only
    omega
  · have := Join.readSource_length _h
    omega
  · have := Join.leaves_readSource _ _ _ _ ‹Join.readSource t rest ts = _›
    have := Join.leaves_readTail _ _ _ _ _h
    simp_all only
    omega

/-- Reads a query. -/
def parse (s : Text) : Except Error Query :=
  let q := scan s
  parseTokens q.rest q.tokens {}

end QueryTemplate
