import ModelExport.Export.Error
import ModelExport.Location
import ModelExport.Model
import ModelExport.Table.Sorted
import ModelExport.Text.Blank

/-!
# Options of an export

Where the results go, what the model is called, which columns are left
out, and whether a predictor is to be exported: demanded, forbidden or
taken along when it can be.
-/

namespace ModelExport

namespace NameSet

/-- The names in a list with commas between them. Blanks around a name
and names without any character are left out. -/
def ofCommas (text : String) : NameSet :=
  ofNames <| (((cutAt ',' text.toList).map trimBlanks).filter (!·.isEmpty)).map String.ofList

end NameSet

/-- The options of an export. -/
structure Options where
  modelPath : Option String := none
  jsonPath : Option String := none
  name : Option String := none
  domain : Option String := none
  inputsToDrop : NameSet := {}
  outputsToDrop : NameSet := {}
  loadPredictor : Option Bool := none

namespace Options

/-- Also leaves out the inputs that the list names. -/
def dropInputs (o : Options) (names : String) : Options :=
  { o with inputsToDrop := o.inputsToDrop.union (.ofCommas names) }

/-- Also leaves out the outputs that the list names. -/
def dropOutputs (o : Options) (names : String) : Options :=
  { o with outputsToDrop := o.outputsToDrop.union (.ofCommas names) }

/-- The name of the model: the one that is given, else that of the file it goes to. -/
def modelName (o : Options) : String :=
  match o.name with
  | some name => name
  | none => ((o.modelPath.map Location.ofPath).bind Location.stem?).getD Model.defaultName

def modelDomain (o : Options) : String := o.domain.getD Model.defaultDomain

/-- Whether both results would go to one place. -/
def samePlace (o : Options) : Bool :=
  match o.modelPath, o.jsonPath with
  | some model, some json => Location.ofPath model = Location.ofPath json
  | _, _ => false

/-- Refuses options that cannot be followed. -/
def validate (o : Options) : Except ExportError Unit :=
  if o.samePlace then .error (.samePath (o.jsonPath.getD ""))
  else if o.name = some "" then .error .emptyModelName
  else .ok ()

end Options

end ModelExport
