import ModelExport.Column.Type
import ModelExport.Names.Error
import ModelExport.Value.Basic

/-!
# Errors of program building
-/

namespace ModelExport

/-- Why a contribution to a program is refused. -/
inductive BuildError where
  /-- No element kind stands for the raw kind of a column. -/
  | noElementKind (kind : RawKind)
  | argument (reason : ArgumentError)
  /-- No variable holds the column. -/
  | undefinedColumn (column : String)
  /-- A function of the name is there already. -/
  | duplicateFunction (name : String)
  | value (reason : ValueError)
  deriving DecidableEq

namespace BuildError

def message : BuildError → String
  | .noElementKind kind => "Translation error: no IR element kind for column kind " ++ kind.name
  | .argument reason => reason.message
  | .undefinedColumn column => "Undefined column: " ++ column
  | .duplicateFunction name => "Duplicate function: " ++ name
  | .value reason => reason.message

end BuildError

end ModelExport
