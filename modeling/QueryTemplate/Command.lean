import QueryTemplate.Compiler
import QueryTemplate.Query.Outline
import QueryTemplate.Request.Toml

namespace QueryTemplate.Command

/-- What the command line asks for. -/
structure Arguments where
  /-- The file of the request. -/
  request : Text
  /-- The file of the query; without one it is read from standard input. -/
  query : Option Text := none
  /-- Whether the query is shown as it was read, and not compiled. -/
  ast : Bool := false
  deriving DecidableEq, Repr

/-- Why there is nothing to do. -/
inductive Refusal
  | help
  | usage
  deriving DecidableEq, Repr

/-- The options given so far. -/
structure Given where
  request : Option Text := none
  query : Option Text := none
  ast : Bool := false
  deriving DecidableEq, Repr

/-- The option of a file, if the argument is that one, with the file if it is in the argument. -/
def fileOption? (long : Text) (short : Char) (a : Text) : Option (Option Text) :=
  if a = "--" ++ long then some none
  else if let some file := Text.afterPrefix? ("--" ++ long ++ "=") a then some (some file)
  else
    match Text.afterPrefix? ['-', short] a with
    | none => none
    | some [] => some none
    | some ('=' :: file) => some (some file)
    | some file => some (some file)

/-- A file that was not given before. -/
def setOnce (before : Option Text) (file : Text) : Except Refusal (Option Text) :=
  if before.isSome || file = [] then .error .usage else .ok (some file)

/-- Whether an argument can be a file after its option. -/
def isFile (a : Text) : Bool := a = ['-'] || a.head? ≠ some '-'

/-- Reads the arguments one after another. -/
def read (g : Given) : List Text → Except Refusal Given
  | [] => .ok g
  | a :: as =>
    if a = "--ast".toList then if g.ast then .error .usage else read { g with ast := true } as
    else if a = "--help".toList || "-h".toList.isPrefixOf a then .error .help
    else if a = "--".toList then if as = [] then .ok g else .error .usage
    else
      match fileOption? "request" 'r' a, fileOption? "query" 'q' a, as with
      | some (some file), _, as =>
        (setOnce g.request file).bind fun f ↦ read { g with request := f } as
      | none, some (some file), as =>
        (setOnce g.query file).bind fun f ↦ read { g with query := f } as
      | some none, _, file :: as =>
        if isFile file then (setOnce g.request file).bind fun f ↦ read { g with request := f } as
        else .error .usage
      | none, some none, file :: as =>
        if isFile file then (setOnce g.query file).bind fun f ↦ read { g with query := f } as
        else .error .usage
      | _, _, _ => .error .usage

def parse (as : List Text) : Except Refusal Arguments :=
  (read {} as).bind fun g ↦
    match g.request with
    | some file => .ok ⟨file, g.query, g.ast⟩
    | none => .error .usage

/-- Why a file could not be read. -/
inductive FileFault
  | missing
  | directory
  | encoding
  | other (detail : Text)
  deriving DecidableEq, Repr

def FileFault.message : FileFault → Text
  | missing => "No such file or directory (os error 2)"
  | directory => "Is a directory (os error 21)"
  | encoding => "stream did not contain valid UTF-8"
  | other detail => detail

/-- What a run leaves behind. -/
structure Outcome where
  code : Nat
  output : Text := []
  diagnostics : Text := []
  deriving DecidableEq, Repr

def usageText : Text := "Usage: chquery [OPTIONS] --request <REQUEST>"

def helpText : Text :=
  Text.join ['\n'] [
    "Compile templated ClickHouse queries into plain SQL", "", usageText, "", "Options:",
    "  -r, --request <REQUEST>  TOML file with options, variables, time range and ad-hoc filters",
    "  -q, --query <QUERY>      Query template; read from stdin when omitted",
    "      --ast                Print the parsed clause tree instead of compiling",
    "  -h, --help               Print help", ""]

def Refusal.outcome : Refusal → Outcome
  | help => ⟨0, helpText, []⟩
  | usage => ⟨2, [], usageText ++ ['\n']⟩

def failure (message : Text) : Outcome := ⟨1, [], "error: " ++ message ++ ['\n']⟩

/-- The request in the file `path`, which reads as `content`. -/
def readRequest (path : Text) (content : Except FileFault Text) : Except Error Request :=
  match content with
  | .ok s => Request.ofToml s
  | .error e => .error (.configuration (path ++ ": " ++ e.message))

/-- The query, or what to say about its file or standard input. -/
def query (path : Option Text) (content : Except FileFault Text) : Except Text Text :=
  match content with
  | .ok s => .ok s
  | .error e => .error ("Failed to read " ++ path.getD "query from stdin" ++ ": " ++ e.message)

/-- The text to print for a query. -/
def answer (ast : Bool) (r : Request) (q : Text) : Except Error Text :=
  if ast then (QueryTemplate.parse q).map fun q ↦ q.outline.render [] else r.compile q

/-- Runs the command on its request and on what the query reads as. Without a request the query
does not matter. -/
def run (a : Arguments) (request : Except Error Request) (queryText : Except FileFault Text) :
    Outcome :=
  match request with
  | .error e => failure e.message
  | .ok r =>
    match query a.query queryText with
    | .error message => failure message
    | .ok q =>
      match answer a.ast r q with
      | .error e => failure e.message
      | .ok s => ⟨0, s ++ ['\n'], []⟩

end QueryTemplate.Command
