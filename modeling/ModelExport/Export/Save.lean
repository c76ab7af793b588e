import ModelExport.Export.Run
import ModelExport.Files
import ModelExport.Wire.Model

/-!
# Storing models

A model is stored in its binary form, in its textual form, or in both,
each where the options say. The binary one is written first; what has
been written stays when a later step fails.
-/

namespace ModelExport

namespace Model

/-- The binary form. -/
def encode (m : Model) : List UInt8 := Wire.encode m

/-- The model at the front of the bytes. -/
def decode (bytes : List UInt8) : Except ExportError Model :=
  match Wire.decode bytes with
  | .ok (m, _) => .ok m
  | .error e => .error (.malformedBytes e)

/-- The textual form. -/
def toText (m : Model) : Except ExportError String :=
  match Wire.toJson? m with
  | some j => .ok j.pretty
  | none => .error .noText

/-- The model that a text stands for. -/
def ofText (text : String) : Except ExportError Model :=
  match Wire.ofText? text with
  | some m => .ok m
  | none => .error .malformedText

end Model

/-- A step that writes files and may fail, with the files as they then are. -/
abbrev Storing := EStateM ExportError Files

namespace Storing

def write (path : String) (content : List UInt8) : Storing Unit := fun files =>
  match files.write path content with
  | .ok files => .ok () files
  | .error _ => .error .io files

def ofExcept {α : Type} : Except ExportError α → Storing α
  | .ok a => pure a
  | .error e => throw e

end Storing

namespace Model

/-- Writes the forms that the options ask for. -/
def save (m : Model) (o : Options) : Storing Unit := do
  match o.modelPath with
  | some path => Storing.write path m.encode
  | none => pure ()
  match o.jsonPath with
  | some path => do
      let text ← Storing.ofExcept m.toText
      Storing.write path (utf8 text)
  | none => pure ()

end Model

namespace Exporter

/-- Exports the pipeline and stores the model. -/
def runAndSave (x : Exporter) (p : Pipeline) (predictor : Option Predictor)
    (roles : Option Roles) : Storing Report := do
  let report ← Storing.ofExcept (x.run p predictor roles)
  report.model.save x.options
  return report

end Exporter

end ModelExport
