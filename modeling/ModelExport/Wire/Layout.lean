import ModelExport.Column.Type
import ModelExport.Expr.Operator
import ModelExport.Value.Basic
import ModelExport.Wire.Datum

/-!
# Layouts

The one table that says of what each kind of stored value consists: the
fields of records and the cases of choices, in the order that numbers
them, with the names that the textual notation gives them. The binary
notation uses the order alone.
-/

namespace ModelExport

/-- The kinds of record and choice that occur in stored values. -/
inductive Entity where
  | rawKind | item | columnType | column | schema
  | elementKind | extent | descriptor
  | value | tensor | tensorData
  | operator | expression | binding
  | parameter | signature | function | program | model
  | role | roles | options
  deriving DecidableEq

/-- What stands at a place of a stored value. -/
inductive Shape where
  | bool | uint | int | single | text
  | list (item : Shape)
  | table (key value : Shape)
  | entity (e : Entity)
  deriving DecidableEq

/-- A field of a record. -/
structure Field where
  name : String
  shape : Shape
  /-- The field need not be given. -/
  optional : Bool := false
  /-- What a text that leaves the field out means by that, if it may. -/
  default? : Option Datum := none

/-- What a case of a choice holds. -/
inductive Content where
  | empty
  | one (shape : Shape)
  | fields (fields : List Field)

/-- A case of a choice. -/
structure Case where
  name : String
  content : Content

/-- The structure of an entity. -/
inductive Form where
  | record (fields : List Field)
  | choice (cases : List Case)

namespace Form

/-- A choice among names. -/
def names (names : List String) : Form :=
  .choice (names.map fun name => { name, content := .empty })

end Form

namespace Entity

/-- What the entity consists of. -/
def layout : Entity → Form
  | .rawKind => .names (RawKind.all.map RawKind.name)
  | .item => .choice
      [{ name := "Primitive", content := .one (.entity .rawKind) },
       { name := "Key", content := .fields
          [{ name := "raw", shape := .entity .rawKind }, { name := "count", shape := .uint }] }]
  | .columnType => .choice
      [{ name := "Scalar", content := .one (.entity .item) },
       { name := "Vector", content := .fields
          [{ name := "item", shape := .entity .item }, { name := "dims", shape := .list .uint }] }]
  | .column => .record
      [{ name := "name", shape := .text },
       { name := "ty", shape := .entity .columnType },
       { name := "hidden", shape := .bool, default? := some (.bool false) }]
  | .schema => .record [{ name := "columns", shape := .list (.entity .column) }]
  | .elementKind => .names (ElementKind.all.map ElementKind.name)
  | .extent => .choice
      [{ name := "Fixed", content := .one .uint }, { name := "Unbound", content := .empty }]
  | .descriptor => .choice
      [{ name := "Scalar", content := .one (.entity .elementKind) },
       { name := "Tensor", content := .fields
          [{ name := "kind", shape := .entity .elementKind },
           { name := "shape", shape := .list (.entity .extent) }] },
       { name := "Map", content := .fields
          [{ name := "key", shape := .entity .elementKind },
           { name := "value", shape := .entity .descriptor }] }]
  | .value => .choice
      [{ name := "Int64", content := .one .int },
       { name := "Float", content := .one .single },
       { name := "String", content := .one .text },
       { name := "Tensor", content := .one (.entity .tensor) }]
  | .tensor => .record
      [{ name := "dims", shape := .list .uint }, { name := "data", shape := .entity .tensorData }]
  | .tensorData => .choice
      [{ name := "Int64s", content := .one (.list .int) },
       { name := "Floats", content := .one (.list .single) },
       { name := "Strings", content := .one (.list .text) }]
  | .operator => .names (Operator.all.map Operator.name)
  | .expression => .choice
      [{ name := "Literal", content := .one (.entity .value) },
       { name := "VariableRef", content := .one .text },
       { name := "FunctionRef", content := .one .text },
       { name := "Call", content := .fields
          [{ name := "target", shape := .entity .expression },
           { name := "args", shape := .list (.entity .expression) }] },
       { name := "Let", content := .one (.list (.entity .binding)) },
       { name := "Set", content := .fields
          [{ name := "name", shape := .text }, { name := "value", shape := .entity .expression }] },
       { name := "For", content := .fields
          [{ name := "inits", shape := .list (.entity .binding) },
           { name := "condition", shape := .entity .expression },
           { name := "body", shape := .list (.entity .expression) },
           { name := "step", shape := .list (.entity .expression) }] },
       { name := "ForEach", content := .fields
          [{ name := "iterator", shape := .text },
           { name := "sequence", shape := .entity .expression },
           { name := "body", shape := .list (.entity .expression) }] },
       { name := "If", content := .fields
          [{ name := "condition", shape := .entity .expression },
           { name := "then_body", shape := .list (.entity .expression) },
           { name := "else_body", shape := .list (.entity .expression), optional := true }] },
       { name := "ElementAccess", content := .fields
          [{ name := "container", shape := .entity .expression },
           { name := "path", shape := .list (.entity .expression) },
           { name := "default", shape := .entity .expression, optional := true }] },
       { name := "Lambda", content := .fields
          [{ name := "params", shape := .list (.entity .parameter) },
           { name := "body", shape := .list (.entity .expression) }] },
       { name := "Comment", content := .one .text }]
  | .binding => .record
      [{ name := "name", shape := .text }, { name := "value", shape := .entity .expression }]
  | .parameter => .record
      [{ name := "name", shape := .text },
       { name := "ty", shape := .entity .descriptor },
       { name := "doc", shape := .text, default? := some (.text "") },
       { name := "variadic", shape := .bool, default? := some (.bool false) }]
  | .signature => .record
      [{ name := "inputs", shape := .list (.entity .parameter) },
       { name := "outputs", shape := .list (.entity .parameter) }]
  | .function => .record
      [{ name := "name", shape := .text },
       { name := "inputs", shape := .list (.entity .parameter) },
       { name := "outputs", shape := .list (.entity .parameter) },
       { name := "body", shape := .list (.entity .expression) }]
  | .program => .record
      [{ name := "name", shape := .text },
       { name := "signature", shape := .entity .signature },
       { name := "body", shape := .list (.entity .expression) },
       { name := "functions", shape := .list (.entity .function), default? := some (.list []) },
       { name := "types", shape := .table .text (.entity .descriptor),
         default? := some (.table []) }]
  | .model => .record
      [{ name := "ir_version", shape := .int },
       { name := "producer_name", shape := .text },
       { name := "producer_version", shape := .text },
       { name := "domain", shape := .text },
       { name := "model_version", shape := .int },
       { name := "model", shape := .entity .program }]
  | .role => .choice
      [{ name := "Label", content := .empty },
       { name := "Features", content := .empty },
       { name := "GroupId", content := .empty },
       { name := "Weight", content := .empty },
       { name := "Name", content := .empty },
       { name := "Custom", content := .one .text }]
  | .roles => .record [{ name := "roles", shape := .table (.entity .role) .text }]
  | .options => .record
      [{ name := "model_path", shape := .text, optional := true, default? := some .absent },
       { name := "json_path", shape := .text, optional := true, default? := some .absent },
       { name := "name", shape := .text, optional := true, default? := some .absent },
       { name := "domain", shape := .text, optional := true, default? := some .absent },
       { name := "inputs_to_drop", shape := .list .text, default? := some (.list []) },
       { name := "outputs_to_drop", shape := .list .text, default? := some (.list []) },
       { name := "load_predictor", shape := .bool, optional := true, default? := some .absent }]

end Entity

end ModelExport
