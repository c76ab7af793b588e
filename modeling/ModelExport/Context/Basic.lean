import ModelExport.Context.Error
import ModelExport.Expr.Build
import ModelExport.Model
import ModelExport.Names.Scope

/-!
# The context of an export

Every stage of a pipeline contributes to one `Context`: variables and the
columns they hold, inputs and outputs, statements, functions, types. A
contribution is a `Build`, a function of the context that ends with a
result or with an error and in either case with the context as it then
is. Names are never given back, statements and parameters are only added
at the end, and of the bindings of a column the latest counts.
-/

namespace ModelExport

/-- What the stages have contributed so far. -/
structure Context where
  /-- Variable names, and for each column the variable that holds it. -/
  scope : Scope := {}
  /-- Names of operators and functions. -/
  operators : NamePool := {}
  inputs : List Parameter := []
  outputs : List Parameter := []
  body : List Expr := []
  functions : List Function := []
  types : Table Descriptor := {}
  /-- The reference to each name that was declared, kept from its first declaration. -/
  references : List (String × Expr) := []
  /-- The literal of each name that was declared with one, latest first. -/
  definitions : List (String × Expr) := []

/-- A contribution: it reads and extends the context, and may fail. -/
abbrev Build := EStateM BuildError Context

namespace Context

def reference? (c : Context) (name : String) : Option Expr := c.references.lookup name

def definition? (c : Context) (name : String) : Option Expr := c.definitions.lookup name

/-- The variable that holds the column now. -/
def variableOf? (c : Context) (column : String) : Option String := c.scope.lookup? column

def containsColumn (c : Context) (column : String) : Bool := c.scope.isBound column

def isOutput (c : Context) (name : String) : Bool := c.outputs.any (·.name = name)

def hasFunction (c : Context) (name : String) : Bool := c.functions.any (·.name = name)

/-- Keeps a reference to the name, unless there is one. -/
def keepReference (c : Context) (name : String) : Context :=
  if (c.reference? name).isSome then c
  else { c with references := (name, .variable name) :: c.references }

/-- The statement that gives the name a value: outputs are overwritten, other names introduced. -/
def statementFor (c : Context) (name : String) (value : Expr) : Expr :=
  if c.isOutput name then .assign name value else .bindOne name value

end Context

namespace Build

/-! ## Steps on parts of the context -/

/-- A step of the scope of variables. -/
def onVariables {α : Type} (f : Scope → Except ArgumentError (α × Scope)) : Build α := fun c =>
  match f c.scope with
  | .ok (a, scope) => .ok a { c with scope }
  | .error e => .error (.argument e) c

/-- A step of the pool of operator names. -/
def onOperators {α : Type} (f : NamePool → Except ArgumentError (α × NamePool)) : Build α :=
  fun c =>
    match f c.operators with
    | .ok (a, operators) => .ok a { c with operators }
    | .error e => .error (.argument e) c

def refuse {α : Type} (reason : ArgumentError) : Build α := throw (.argument reason)

def checkColumn (column : String) : Build Unit :=
  if column = "" then refuse .emptyColumn else pure ()

def elementKind (kind : RawKind) : Build ElementKind :=
  match kind.elementKind? with
  | some k => pure k
  | none => throw (.noElementKind kind)

def descriptor (type : ColumnType) : Build Descriptor :=
  match type.descriptor? with
  | some d => pure d
  | none => throw (.noElementKind type.rawKind)

def freshVariable (stem : String) : Build String := onVariables (·.fresh stem)

def allocateColumn (column : String) : Build String := onVariables (·.allocate column)

def keepReference (name : String) : Build Unit := modify (·.keepReference name)

def setType (name : String) (type : Descriptor) : Build Unit :=
  modify fun c => { c with types := c.types.insert name type }

def append (e : Expr) : Build Unit := modify fun c => { c with body := c.body ++ [e] }

/-- The name a caller chose, or a fresh one from the stem when there was
no choice. A chosen name may be in use already. -/
def claim (name : Option String) (stem : String) : Build String :=
  match name with
  | none => freshVariable stem
  | some name =>
      if name = "" then refuse .emptyVariable
      else do
        modify fun c => { c with scope := (c.scope.reserve name).2 }
        return name

/-! ## Names -/

/-- Takes a fresh variable name. -/
def declareRef (stem : String) : Build String := do
  let name ← freshVariable stem
  keepReference name
  return name

/-- Takes a fresh operator name. -/
def operatorName (stem : String) : Build String := onOperators (·.allocate stem)

/-! ## Columns -/

/-- The variable that holds the column now. -/
def variableName (column : String) : Build String := do
  match (← get).variableOf? column with
  | some name => return name
  | none => throw (.undefinedColumn column)

/-- The variable that holds the column; a column without one gets a fresh variable. -/
def lookupOrAllocate (column : String) : Build String := do
  checkColumn column
  let name ← onVariables (·.lookupOrAllocate column)
  keepReference name
  return name

/-- Lets the column be held by a variable that there is. -/
def bindColumn (column name : String) : Build Unit := do
  checkColumn column
  onVariables fun s => (s.bind column name).map ((), ·)

/-- Takes a variable for a column that a stage produces. -/
def addIntermediate (type : ColumnType) (column : String) : Build String := do
  checkColumn column
  let d ← descriptor type
  let name ← allocateColumn column
  setType name d
  keepReference name
  return name

/-! ## Signature -/

/-- Registers an input for the column and lets it hold the column. -/
def addInput (type : ColumnType) (column : String) : Build String := do
  checkColumn column
  let d ← descriptor type
  let name ← allocateColumn column
  setType name d
  modify fun c => { c with inputs := c.inputs ++ [{ name, type := d }] }
  keepReference name
  return name

/-- Registers an output for the column. The output has a name of its own
and is assigned from the variable that holds the column now. -/
def addOutput (type : ColumnType) (column : String) : Build String := do
  checkColumn column
  let source ← variableName column
  let d ← descriptor type
  let name ← freshVariable column
  setType name d
  modify fun c => { c with outputs := c.outputs ++ [{ name, type := d }] }
  append (.assign name (.variable source))
  keepReference name
  return name

/-! ## Body -/

/-- Gives a literal a name. -/
def declare (value : Value) (name : Option String) : Build String := do
  let name ← claim name "const"
  let literal := Expr.literal value
  append ((← get).statementFor name literal)
  modify fun c => { c with definitions := (name, literal) :: c.definitions }
  keepReference name
  return name

/-- Adds a statement as it stands. -/
def addExpr (e : Expr) : Build Unit := append e

def addExprs (es : List Expr) : Build Unit := modify fun c => { c with body := c.body ++ es }

/-- Gives the element at the path a name. -/
def access (container : Expr) (path : List Expr) (fallback : Option Expr) (name : Option String) :
    Build String := do
  match Expr.accessAt container path fallback with
  | .error e => throw (.value e)
  | .ok value =>
      let name ← claim name "elem"
      append (.bindOne name value)
      keepReference name
      return name

/-! ## Functions -/

/-- Adds a function. Its name must be free among functions and operators. -/
def addFunction (f : Function) : Build Unit := do
  if f.name = "" then refuse .emptyFunction
  else
    let c ← get
    if c.hasFunction f.name ∨ c.operators.contains f.name then throw (.duplicateFunction f.name)
    else
      set { c with
        operators := (c.operators.reserve f.name).2
        functions := c.functions ++ [f] }

end Build

/-! ## Assembly -/

/-- What the envelope of a model is to say. -/
structure Envelope where
  name : String := Model.defaultName
  domain : String := Model.defaultDomain
  modelVersion : Int64 := 0

namespace Context

/-- The program that the context holds. -/
def program (c : Context) (name : String) : Program where
  name
  signature := { inputs := c.inputs, outputs := c.outputs }
  body := c.body
  functions := c.functions
  types := c.types

/-- The model of the program that the context holds. -/
def assemble (c : Context) (envelope : Envelope) : Model where
  irVersion := Model.currentVersion
  producerName := Model.producer
  producerVersion := Model.producerRelease
  domain := envelope.domain
  modelVersion := envelope.modelVersion
  program := c.program envelope.name

end Context

end ModelExport
