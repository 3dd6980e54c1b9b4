import QueryTemplate.Request.Decode
import QueryTemplate.Toml.Document

namespace QueryTemplate

/-- Reads a request from the text of a TOML document. -/
def Request.ofToml (s : Text) : Except Error Request :=
  match Toml.parse? s with
  | none => .error (.configuration "the text is no TOML document")
  | some d =>
    match Request.ofDatum? d with
    | none => .error (.configuration "the document is no request")
    | some r => .ok r

end QueryTemplate
