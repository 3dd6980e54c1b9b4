import QueryTemplate.Decimal.Basic
import QueryTemplate.Text.Quoted

namespace QueryTemplate

/-- Where the values of a variable come from. -/
inductive VariableKind
  | query
  | custom
  | textbox
  | constant
  | interval
  | datasource
  | adhoc
  deriving DecidableEq, Repr, Inhabited

/-- The current value of a variable, or one of its options. -/
inductive Value
  | number (x : Float)
  | text (s : Text)
  | list (items : List Value)
  deriving Inhabited

namespace Value

/-- The text that stands for all options. -/
def allText : Text := "$__all"

/-- Whether there is nothing but empty texts. -/
def isEmpty : Value → Bool
  | number _ => false
  | text s => s = []
  | list items => go items
where
  go : List Value → Bool
    | [] => true
    | v :: vs => v.isEmpty && go vs

/-- Whether all options are selected. -/
def isAll : Value → Bool
  | number _ => false
  | text s => s = allText
  | list items => go items
where
  go : List Value → Bool
    | [] => false
    | v :: vs => v.isAll || go vs

def isNumeric : Value → Bool
  | number _ => true
  | text s => Text.isNumeral s
  | list _ => false

/-- The text as it was typed, lists with commas. -/
def raw : Value → Text
  | number x => Decimal.literal x
  | text s => s
  | list items => Text.join [','] (go items)
where
  go : List Value → List Text
    | [] => []
    | v :: vs => v.raw :: go vs

/-- A literal for the value. Texts that are numerals stay bare if `numeric`. -/
def escape (numeric : Bool) : Value → Text
  | number x => Decimal.literal x
  | text s => if numeric && Text.isNumeral s then Text.trim s else Text.quote s
  | list items => "[" ++ Text.join ", " (go items) ++ "]"
where
  go : List Value → List Text
    | [] => []
    | v :: vs => v.escape numeric :: go vs

end Value

/-- A dashboard variable with its selected value. -/
structure Variable where
  name : Text
  kind : VariableKind := .query
  current : Value := .text []
  multi : Bool := false
  includeAll : Bool := false
  options : List Value := []
  /-- What stands for all options. -/
  allValue : Option Text := none
  deriving Inhabited

namespace Variable

/-- Whether something is selected. All options of a list filter nothing; typed text is taken
literally. -/
def isSet (v : Variable) : Bool :=
  !v.current.isEmpty && (!v.current.isAll || v.kind = .textbox || v.kind = .constant)

def listedOptions (v : Variable) : List Value := v.options.filter (!·.isAll)

/-- Whether all options look like numbers. -/
def numericOptions (v : Variable) : Bool := v.listedOptions.all Value.isNumeric

def escape (v : Variable) (x : Value) : Text := x.escape v.numericOptions

def escapeList (v : Variable) (xs : List Value) : Text := Text.join [','] (xs.map v.escape)

/-- What a reference to the variable stands for. -/
def render (v : Variable) : Text :=
  if !v.multi && !v.includeAll then v.current.raw
  else if v.includeAll && v.current.isAll then v.allValue.getD (v.escapeList v.listedOptions)
  else
    match v.current with
    | .list items => v.escapeList items
    | x => v.escape x

end Variable

/-- The variable of that name, the first one of several. -/
def findVariable (vs : List Variable) (n : Text) : Option Variable := vs.find? fun v ↦ v.name = n

end QueryTemplate
