import QueryTemplate.Aggregation.Basic
import QueryTemplate.Aggregation.Tail
import QueryTemplate.Aggregation.TimeFilter

namespace QueryTemplate.Aggregation

/-- How the value of the previous time bucket is reached. -/
inductive Mode
  /-- With functions over neighbouring rows. -/
  | running
  /-- With window functions. -/
  | window
  deriving DecidableEq, Repr

namespace Mode

def difference (column : Text) : Mode → Text
  | running => "runningDifference(" ++ column ++ ")"
  | window => "(" ++ column ++ " - lagInFrame(" ++ column ++ ", 1, " ++ column ++ ") OVER ())"

/-- Seconds since the previous bucket. -/
def elapsed : Mode → Text
  | running => "runningDifference(t/1000)"
  | window => "((t - lagInFrame(t, 1, t) OVER ()) / 1000)"

/-- Whether a column differs from the previous row. -/
def changed (column : Text) : Mode → Text
  | running => "neighbor(" ++ column ++ ", -1, " ++ column ++ ") != " ++ column
  | window =>
    "lagInFrame(" ++ column ++ ", 1, " ++ column ++ ") OVER () != " ++ column

/-- The change of a column since the previous row. Where `reset` holds, that row belongs to another
series. -/
def counter (m : Mode) (column : Text) (c : Change) (reset : Option Text) : Text :=
  let diff := m.difference column
  let orReset : Text := match reset with
    | none => []
    | some r => " OR " ++ r
  match c, reset with
  | .rate, none => column ++ "/" ++ m.elapsed
  | .rate, some r => "if(" ++ r ++ ", nan, " ++ column ++ "/" ++ m.elapsed ++ ")"
  | .perSecond, _ =>
    "if(" ++ diff ++ " < 0" ++ orReset ++ ", nan, " ++ diff ++ " / " ++ m.elapsed ++ ")"
  | .increase, _ => "if(" ++ diff ++ " < 0" ++ orReset ++ ", 0, " ++ diff ++ ")"
  | .delta, none => diff
  | .delta, some r => "if(" ++ r ++ ", 0, " ++ diff ++ ")"

end Mode

/-- What the subquery of an expansion is built from. -/
structure Parts where
  /-- The macro's name, for messages. -/
  name : Text
  /-- The text of `FROM` with the time filter, without its trailing clauses. -/
  source : Text
  tail : Tail

namespace Parts

def sourceWithTail (p : Parts) (groupBy orderBy : Text) : Text :=
  attach p.source (p.tail.render groupBy orderBy)

/-- Expression and alias of an argument; a bare name is its own alias. -/
def aliased (p : Parts) (arg : Text) : Except Error (Text × Text) :=
  (splitAlias arg).bind fun
    | some a => .ok a
    | none => (tokenize false arg).bind fun
      | [t] =>
        if t.kind = .identifier then .ok (t.text, t.text)
        else .error (.unaliased p.name (Text.trim arg))
      | _ => .error (.unaliased p.name (Text.trim arg))

end Parts

/-- Columns numbered from `n` on. -/
def numbered (n : Nat) : List α → List (Text × α)
  | [] => []
  | x :: xs => ("max_" ++ Text.ofNat n, x) :: numbered (n + 1) xs

/-- The outer select over a bucketing subquery, common to all changes of plain arguments. -/
def bucketed (p : Parts) (outer inner : List Text) : Text :=
  "SELECT t, " ++ Text.join ", " outer ++ " FROM (SELECT $timeSeries AS t, " ++
    Text.join ", " inner ++ " " ++ p.sourceWithTail "t" "t" ++ ")"

/-- Every alias divided by the bucket length. -/
def rates (m : Mode) (p : Parts) (args : List Text) : Except Error Text :=
  (args.mapM p.aliased).map fun aliases ↦
    bucketed p (aliases.map fun a ↦ m.counter a.2 .rate none ++ " " ++ a.2 ++ "Rate") args

/-- The change of the greatest value of every argument. -/
def counters (m : Mode) (p : Parts) (c : Change) (args : List Text) : Text :=
  bucketed p
    ((numbered 0 args).map fun (column, _) ↦
      m.counter column c none ++ " AS " ++ column ++ "_" ++ c.suffix)
    ((numbered 0 args).map fun (column, arg) ↦ "max(" ++ arg ++ ") AS " ++ column)

/-- One array of keys and values for each time bucket. -/
def keyedColumns (p : Parts) (series key value : Text) : Except Error Text :=
  (p.aliased key).bind fun (_, k) ↦
    (p.aliased value).map fun (_, v) ↦
      let byKey := "t, " ++ k
      "SELECT t, groupArray((" ++ k ++ ", " ++ v ++ ")) AS groupArr FROM (SELECT " ++ series ++
        " AS t, " ++ key ++ ", " ++ value ++ " " ++ p.sourceWithTail byKey byKey ++
        ") GROUP BY t ORDER BY t"

/-- The same with every value divided by the bucket length. -/
def rateColumns (m : Mode) (p : Parts) (key value : Text) : Except Error Text :=
  (keyedColumns p "$timeSeries" key value).map fun pivot ↦
    match m with
    | .window =>
      "SELECT t, arrayMap(a -> (a.1, a.2/dt), groupArr) FROM (SELECT t, groupArr, " ++ m.elapsed ++
        " AS dt FROM (" ++ pivot ++ "))"
    | .running =>
      "SELECT t, arrayMap(a -> (a.1, a.2/" ++ m.elapsed ++ "), groupArr) FROM (" ++ pivot ++ ")"

/-- The change of a value by key; a key without an alias takes `default`. -/
def counterColumns (m : Mode) (p : Parts) (c : Change) (default key value : Text) :
    Except Error Text :=
  (splitAlias key).map fun alias? ↦
    let (key, k) := match alias? with
      | some (_, k) => (key, k)
      | none => (key ++ " AS " ++ default, default)
    let column := "max_0_" ++ c.suffix
    "SELECT t, groupArray((" ++ k ++ ", " ++ column ++ ")) AS groupArr FROM (SELECT t, " ++ k ++
      ", " ++ m.counter "max_0" c (some (m.changed k)) ++ " AS " ++ column ++
      " FROM (SELECT $timeSeries AS t, " ++ key ++ ", max(" ++ value ++ ") AS max_0 " ++
      p.sourceWithTail ("t, " ++ k) (k ++ ", t") ++ ")) GROUP BY t ORDER BY t"

/-- Changes by subkey, each aggregated by its function over the subkeys of a key. -/
def aggregatedColumns (m : Mode) (p : Parts) (c : Change) (key subkey : Text)
    (pairs : List (Text × Text)) : Except Error Text :=
  (p.aliased key).bind fun (_, k) ↦ (p.aliased subkey).bind fun (_, sub) ↦
    ((pairs.mapM fun (f, value) ↦ (p.aliased value).map fun (e, a) ↦ (f, e, a)) :
      Except Error (List (Text × Text × Text))).map fun values ↦
      let reset := m.changed k ++ " OR " ++ m.changed sub
      let inner := (numbered 0 values).map fun (column, _, e, _) ↦
        "max(" ++ e ++ ") AS " ++ column
      let middle := (numbered 0 values).map fun (column, _, _, a) ↦
        m.counter column c (some reset) ++ " AS " ++ a ++ c.suffix
      let outer := values.map fun (f, _, a) ↦
        f ++ "(" ++ a ++ c.suffix ++ ") AS " ++ a ++ c.suffix ++ "Agg"
      let groupBy := p.tail.groupBy.getD ("t, " ++ k ++ ", " ++ sub)
      let orderBy := p.tail.orderBy.getD (k ++ ", " ++ sub ++ ", t")
      "SELECT t, " ++ k ++ ", " ++ Text.join ", " outer ++ " FROM (SELECT t, " ++ k ++ ", " ++
        sub ++ ", " ++ Text.join ", " middle ++ " FROM (SELECT $timeSeries AS t, " ++ key ++
        ", " ++ subkey ++ ", " ++ Text.join ", " inner ++ " " ++
        attach p.source ("GROUP BY " ++ groupBy ++ " ORDER BY " ++ orderBy ++ p.tail.limits) ++
        ")) GROUP BY t, " ++ k ++ Tail.clause "HAVING" p.tail.having ++ " ORDER BY t, " ++ k

/-- The statement that a macro stands for. -/
def Shape.render (m : Mode) (p : Parts) : Shape → Except Error Text
  | .columns series key value => keyedColumns p series key value
  | .plain .rate args => rates m p args
  | .plain c args => .ok (counters m p c args)
  | .pivoted .rate key value => rateColumns m p key value
  | .pivoted c key value => counterColumns m p c (c.name ++ "Columns") key value
  | .aggregated c key subkey pairs => aggregatedColumns m p c key subkey pairs

/-- The arguments of a macro as the query holds them; those of a statement are cut from the text. -/
def argumentsIn (q : Query) (m : Aggregation) (args : Text) : Except Error (List Text) :=
  match q.lookupCall m.name with
  | some (.list items) => .ok items
  | _ => splitArguments args

/-- Puts the statement that the macro `m` stands for into the text of the query `q`. -/
def expandMacro (mode : Mode) (m : Aggregation) (s : Text) (q : Query) : Except Error Text := do
  let call ← locate s m.name
  let args ← argumentsIn q m call.args
  let shape ← m.shape args
  let (body, tail) ← Tail.split call.source
  let source ← injectTimeFilter body m.timeFilter
  let expanded ← shape.render mode ⟨m.name, source, tail⟩
  return call.before ++ expanded ++ Tail.clause "FORMAT" tail.format

/-- Expands the first macro of a query in its text; a text without macros stays. -/
def expand (mode : Mode) (s : Text) (q : Query) : Except Error Text :=
  match first? q with
  | none => .ok s
  | some m => expandMacro mode m s q

end QueryTemplate.Aggregation
