import QueryTemplate.Text.Basic
import QueryTemplate.Text.Ranges
import QueryTemplate.Text.Alphanumeric
import QueryTemplate.Text.Word
import QueryTemplate.Text.Digit
import QueryTemplate.Text.Printable
import QueryTemplate.Text.Uppercase
import QueryTemplate.Error
import QueryTemplate.Token.Basic
import QueryTemplate.Token.Recognizer
import QueryTemplate.Token.Grammar
import QueryTemplate.Query.Parser
import QueryTemplate.Aggregation.Expand
import QueryTemplate.Variable.Conditional
import QueryTemplate.Filter.Basic
import QueryTemplate.Time.Duration
import QueryTemplate.Decimal.Nearest
import QueryTemplate.Time.Window
import QueryTemplate.Time.Column
import QueryTemplate.Request.Decode
import QueryTemplate.Toml.Document
import QueryTemplate.Compiler
import QueryTemplate.Query.Outline
import QueryTemplate.Main
import QueryTemplate.Proofs.Filter.Statement
import QueryTemplate.Proofs.Filter.Inject
import QueryTemplate.Proofs.Token.Solid
import QueryTemplate.Proofs.Token.Locality
import QueryTemplate.Proofs.Query.Reads
import QueryTemplate.Proofs.Query.Items
import QueryTemplate.Proofs.Query.Unions
import QueryTemplate.Proofs.Query.Layout
import QueryTemplate.Proofs.Query.Reparse
import QueryTemplate.Proofs.Query.CellText
import QueryTemplate.Proofs.Query.Filling
import QueryTemplate.Proofs.Query.Placed
import QueryTemplate.Proofs.Query.Statement
import QueryTemplate.Proofs.Query.Roundtrip
import QueryTemplate.Proofs.Query.Block
import QueryTemplate.Proofs.Filter.Typeset
import QueryTemplate.Proofs.Filter.Filtered
import QueryTemplate.Proofs.Filter.Receptive
import QueryTemplate.Proofs.Filter.Fill
import QueryTemplate.Proofs.Filter.Mention
import QueryTemplate.Proofs.Filter.Literal
import QueryTemplate.Proofs.Filter.Compile
import QueryTemplate.Proofs.Token.Tiling
import QueryTemplate.Proofs.Query.Agreement
import QueryTemplate.Proofs.Query.Balance
import QueryTemplate.Proofs.Variable.Rendering
import QueryTemplate.Proofs.Filter.Parsed
import QueryTemplate.Proofs.Join.Attach
import QueryTemplate.Proofs.Join.Clauses
import QueryTemplate.Proofs.Join.Statement
import QueryTemplate.Proofs.Time.Window
import QueryTemplate.Proofs.Join.Roundtrip
import QueryTemplate.Proofs.Filter.Plain
import QueryTemplate.Proofs.Query.Stripped
import QueryTemplate.Proofs.Time.Exact
import QueryTemplate.Proofs.Filter.Reference
import QueryTemplate.Proofs.Filter.Comment
import QueryTemplate.Proofs.Filter.Frame
import QueryTemplate.Proofs.Token.Split
import QueryTemplate.Proofs.Aggregation.Located
import QueryTemplate.Proofs.Token.Exchange
import QueryTemplate.Proofs.Token.Call
import QueryTemplate.Proofs.Variable.Conditional
import QueryTemplate.Proofs.Time.Duration
import QueryTemplate.Proofs.Variable.Unescape
import QueryTemplate.Proofs.Aggregation.Tail
import QueryTemplate.Proofs.Query.TableName
import QueryTemplate.Proofs.Aggregation.Expansion
import QueryTemplate.Proofs.Aggregation.Source
import QueryTemplate.Proofs.Query.Arguments
import QueryTemplate.Proofs.Query.Access
import QueryTemplate.Proofs.Filter.Union
import QueryTemplate.Proofs.Filter.Branch
import QueryTemplate.Proofs.Aggregation.Alias
import QueryTemplate.Proofs.Aggregation.Clauses
import QueryTemplate.Proofs.Aggregation.Rendered
import QueryTemplate.Proofs.Aggregation.Shape
import QueryTemplate.Proofs.Filter.Behind
