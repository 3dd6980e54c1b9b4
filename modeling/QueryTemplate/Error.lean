import QueryTemplate.Text.Basic

namespace QueryTemplate

/-- What is wrong with the key or the operator of an ad-hoc filter. -/
inductive FilterFault
  | emptyPart
  | unqualified
  | partCount
  | operator
  deriving DecidableEq, Repr

/-- Why a query could not be read, expanded or compiled. -/
inductive Error
  /-- No token starts at `rest`. -/
  | unreadable (rest : Text)
  /-- Another token was needed; `rest` is what stands at that place. -/
  | unexpected (expected found rest : Text)
  /-- A parenthesis opened before `span` is never closed. -/
  | unclosed (span : Text)
  | arity (call expected : Text) (args : List Text)
  | unaliased (call argument : Text)
  | undefinedVariable (name : Text)
  | sourceMissing (call query : Text)
  | clauseOrder (clause previous : Text)
  | filterFormat (key : Text) (fault : FilterFault)
  | badDuration (duration : Text)
  | configuration (detail : Text)
  deriving DecidableEq, Repr

/-- The sort of an error, whatever it says about the place. -/
inductive Error.Kind
  | unreadable
  | unexpected
  | unclosed
  | arity
  | unaliased
  | undefinedVariable
  | sourceMissing
  | clauseOrder
  | filterFormat
  | badDuration
  | configuration
  deriving DecidableEq, Repr

def FilterFault.reason : FilterFault → Text
  | emptyPart => "empty key part"
  | unqualified => "no target table to qualify it with"
  | partCount => "expected database.table.column"
  | operator => "unknown operator"

namespace Error

def kind : Error → Kind
  | unreadable _ => .unreadable
  | unexpected .. => .unexpected
  | unclosed _ => .unclosed
  | arity .. => .arity
  | unaliased .. => .unaliased
  | undefinedVariable _ => .undefinedVariable
  | sourceMissing .. => .sourceMissing
  | clauseOrder .. => .clauseOrder
  | filterFormat .. => .filterFormat
  | badDuration _ => .badDuration
  | configuration _ => .configuration

def message : Error → Text
  | unreadable rest => "unexpected input at `" ++ rest ++ "`"
  | unexpected expected found rest =>
    "expected " ++ expected ++ ", but got `" ++ found ++ "` at `" ++ rest ++ "`"
  | unclosed span => "missing closing parenthesis in `" ++ span ++ "`"
  | arity call expected args =>
    call ++ " expects " ++ expected ++ " arguments, got " ++ Text.ofNat args.length ++ ": " ++
      Text.join ", " args
  | unaliased call argument =>
    "argument `" ++ argument ++ "` of " ++ call ++ " can't be used without an alias"
  | undefinedVariable name => "variable `" ++ name ++ "` is not defined"
  | sourceMissing call query =>
    "could not find FROM statement after " ++ call ++ " in `" ++ query ++ "`"
  | clauseOrder clause previous => clause ++ " must not follow " ++ previous
  | filterFormat key fault =>
    "ad-hoc filter `" ++ key ++ "` has wrong format: " ++ fault.reason
  | badDuration duration => "received interval is invalid: `" ++ duration ++ "`"
  | configuration detail => "invalid configuration: " ++ detail

end Error
end QueryTemplate
