import ModelExport.Context.Call
import ModelExport.Export.OptionsFile
import ModelExport.Export.Save
import ModelExport.Pipeline.Outline
import ModelExport.Wire.Column
import ModelExport.Wire.Options
import ModelExport.Wire.Roles
import ModelExport.Proofs.Names.Plain
import ModelExport.Proofs.Names.Scope
import ModelExport.Proofs.Export.Signature
import ModelExport.Proofs.Export.Suffix
import ModelExport.Proofs.Context.Failure
import ModelExport.Proofs.Wire.Binary
import ModelExport.Proofs.Json.Token
import ModelExport.Proofs.Json.Tree
import ModelExport.Proofs.Wire.Stored
import ModelExport.Proofs.Export.RoundTrip
import ModelExport.Proofs.Decimal.Rounding
import ModelExport.Proofs.Json.Number
import ModelExport.Proofs.Decimal.Single
import ModelExport.Proofs.Decimal.Shortest
import ModelExport.Proofs.Decimal.Midpoint
import ModelExport.Proofs.Json.Single
import ModelExport.Proofs.Export.Predictor
import ModelExport.Proofs.Export.Program
import ModelExport.Proofs.Export.Scores
import ModelExport.Proofs.Context.Preservation
import ModelExport.Proofs.Export.Contract
import ModelExport.Proofs.Export.Assignment
import ModelExport.Proofs.Context.Binding
import ModelExport.Proofs.Wire.Progress
import ModelExport.Proofs.Wire.Exact
import ModelExport.Proofs.Export.Bounds
import ModelExport.Proofs.Export.Respelling
import ModelExport.Proofs.Context.Namespaces
import ModelExport.Proofs.Context.Shadowing
import ModelExport.Proofs.Export.Flaws
import ModelExport.Proofs.Pipeline.Cursor
import ModelExport.Proofs.Extent
import ModelExport.Proofs.Context.Shape
import ModelExport.Proofs.Column.Append
import ModelExport.Proofs.Names.Keys
import ModelExport.Proofs.Context.Columns
import ModelExport.Proofs.Context.Callable
import ModelExport.Proofs.Export.Dropped
import ModelExport.Proofs.Text.Commas
import ModelExport.Proofs.Wire.Roles
import ModelExport.Proofs.Export.Places
