import ModelExport.Context.Error
import ModelExport.Wire.Varint

/-!
# Errors of an export
-/

namespace ModelExport

/-- Why an export, or the storing of its result, fails. -/
inductive ExportError where
  /-- A predictor is demanded and there is none. -/
  | noPredictor
  /-- A predictor is demanded and this one has no scorer that can be exported. -/
  | predictorNotExportable (predictor : String)
  /-- An input or an output is refused. -/
  | build (reason : BuildError)
  | stageFailed (stage : String) (reason : BuildError)
  | notExportable (stage : String)
  /-- Both outputs would be written to one place. -/
  | samePath (path : String)
  | emptyModelName
  /-- The text of the options cannot be read. -/
  | malformedOptions
  /-- The bytes are no stored model. -/
  | malformedBytes (reason : WireError)
  /-- The text is no stored model. -/
  | malformedText
  /-- The model cannot be written as a text. -/
  | noText
  /-- A file cannot be read or written. -/
  | io
  deriving DecidableEq

namespace ExportError

def message : ExportError → String
  | .noPredictor =>
      "Configuration error: predictor export was requested but no predictor is present"
  | .predictorNotExportable predictor =>
      "Configuration error: predictor export was requested but predictor '" ++ predictor
        ++ "' cannot be exported"
  | .build reason => "Compiler error: " ++ reason.message
  | .stageFailed stage reason => "Stage '" ++ stage ++ "' failed to export: " ++ reason.message
  | .notExportable stage => "Stage '" ++ stage ++ "' cannot be exported"
  | .samePath path =>
      "Invalid configuration: JSON output path must differ from model path: " ++ path
  | .emptyModelName => "Invalid configuration: model name must not be empty"
  | .malformedOptions => "Invalid configuration: the text cannot be read"
  | .malformedBytes reason => "Serialization error: " ++ reason.message
  | .malformedText => "Serialization error: the text cannot be read"
  | .noText => "Serialization error: the model has no textual form"
  | .io => "I/O error"

end ExportError

end ModelExport
