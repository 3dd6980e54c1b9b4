import QueryTemplate.Command

namespace QueryTemplate.Command

/-- The text of a file or a stream. -/
def readAll (bytes : IO ByteArray) : IO (Except FileFault Text) := do
  try
    match String.fromUTF8? (← bytes) with
    | some s => return .ok s.toList
    | none => return .error .encoding
  catch
    | .noFileOrDirectory .. => return .error .missing
    | .inappropriateType .. => return .error .directory
    | e => return .error (.other (toString e).toList)

def readFile (path : Text) : IO (Except FileFault Text) :=
  readAll (IO.FS.readBinFile (String.ofList path))

def readInput : IO (Except FileFault Text) :=
  readAll do (← IO.getStdin).readBinToEnd

def Arguments.execute (a : Arguments) : IO Outcome := do
  let request := readRequest a.request (← readFile a.request)
  let query ← if request.isOk then a.query.elim readInput readFile else pure (.ok [])
  return run a request query

end QueryTemplate.Command

open QueryTemplate

def main (args : List String) : IO UInt32 := do
  let outcome ← match Command.parse (args.map String.toList) with
    | .error refusal => pure refusal.outcome
    | .ok a => a.execute
  (← IO.getStdout).putStr (String.ofList outcome.output)
  (← IO.getStderr).putStr (String.ofList outcome.diagnostics)
  return outcome.code.toUInt32
