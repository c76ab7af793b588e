import ModelExport.Export.Options
import ModelExport.Wire.Binary
import ModelExport.Yaml.Reader

/-!
# Options in files

Options are read from YAML. Any scalar is a text, and only plain ones can
mean that nothing is given. Keys that name no option are skipped, a key
that is given twice is refused, and an empty document gives no option.
-/

namespace ModelExport

namespace Yaml

def text? : Yaml → Option String
  | .scalar text _ => some text
  | _ => none

/-- Whether the node stands for nothing. -/
def isNull : Yaml → Bool
  | .scalar text plain => plain && ["", "~", "null", "Null", "NULL"].contains text
  | _ => false

def bool? : Yaml → Option Bool
  | .scalar text true =>
      if ["true", "True", "TRUE"].contains text then some true
      else if ["false", "False", "FALSE"].contains text then some false
      else none
  | _ => none

def texts? : Yaml → Option (List String)
  | .list items => items.mapM text?
  | .scalar "" true => some []
  | _ => none

/-- A node that need not be given. -/
def option? {α : Type} (f : Yaml → Option α) (node : Yaml) : Option (Option α) :=
  if node.isNull then some none else (f node).map some

/-- The entries of a map by the texts of its keys; an empty document has none. -/
def fields? : Yaml → Option (List (String × Yaml))
  | .map entries => entries.mapM fun (e : Yaml × Yaml) => e.1.text?.map (·, e.2)
  | .scalar "" true => some []
  | _ => none

end Yaml

namespace Options

/-- The keys that name an option. -/
def keys : List String :=
  ["model_path", "json_path", "name", "domain", "inputs_to_drop", "outputs_to_drop",
   "load_predictor"]

/-- The options that a document gives. -/
def ofYaml? (document : Yaml) : Option Options := do
  let fields ← document.fields?
  let known := fields.filter fun f => keys.contains f.1
  let text (key : String) := ((known.lookup key).getD .missing).option? Yaml.text?
  let names (key : String) := ((known.lookup key).getD .missing).texts?.map NameSet.ofNames
  if (known.map (·.1)).Nodup then
    return { modelPath := ← text "model_path"
             jsonPath := ← text "json_path"
             name := ← text "name"
             domain := ← text "domain"
             inputsToDrop := ← names "inputs_to_drop"
             outputsToDrop := ← names "outputs_to_drop"
             loadPredictor := ← ((known.lookup "load_predictor").getD .missing).option? Yaml.bool? }
  else none

/-- The options that a text gives. -/
def ofText (text : String) : Except ExportError Options :=
  match (Yaml.parse? text).bind ofYaml? with
  | some o => .ok o
  | none => .error .malformedOptions

/-- The options that a file gives, by its bytes; there are none if there is no file. -/
def ofFile (content : Option (List UInt8)) : Except ExportError Options :=
  match content.bind ofUtf8? with
  | some text => ofText text
  | none => .error .io

end Options

end ModelExport
