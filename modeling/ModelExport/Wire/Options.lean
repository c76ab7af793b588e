import ModelExport.Export.Options
import ModelExport.Wire.Basic

/-!
# Stored options
-/

namespace ModelExport

namespace Options

def toDatum (o : Options) : Datum :=
  .record
    [.ofOption .text o.modelPath, .ofOption .text o.jsonPath, .ofOption .text o.name,
     .ofOption .text o.domain, .texts o.inputsToDrop.names, .texts o.outputsToDrop.names,
     .ofOption .bool o.loadPredictor]

def ofDatum? : Datum → Option Options
  | .record [modelPath, jsonPath, name, domain, inputs, outputs, loadPredictor] => do
      return { modelPath := ← modelPath.option? Datum.text?
               jsonPath := ← jsonPath.option? Datum.text?
               name := ← name.option? Datum.text?
               domain := ← domain.option? Datum.text?
               inputsToDrop := .ofNames (← inputs.items? Datum.text?)
               outputsToDrop := .ofNames (← outputs.items? Datum.text?)
               loadPredictor := ← loadPredictor.option? Datum.bool? }
  | _ => none

instance : Wire Options := ⟨.options, toDatum, ofDatum?⟩

end Options

end ModelExport
