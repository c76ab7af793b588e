import ModelExport.Expr.Basic
import ModelExport.Table.Ordered

/-!
# Models

A model is an exported program in an envelope: the envelope says which
format the program is written for and who produced it, the program has a
signature, a body, a table of functions and the types of its variables.
-/

namespace ModelExport

/-- The parameters that a program reads and writes. -/
structure Signature where
  inputs : List Parameter := []
  outputs : List Parameter := []

/-- A named function of a program. -/
structure Function where
  name : String
  inputs : List Parameter := []
  outputs : List Parameter := []
  body : List Expr := []

/-- A program: its types are in the order in which the variables were registered. -/
structure Program where
  name : String
  signature : Signature
  body : List Expr
  functions : List Function := []
  types : Table Descriptor := {}

namespace Program

def inputNames (p : Program) : List String := p.signature.inputs.map (·.name)

def outputNames (p : Program) : List String := p.signature.outputs.map (·.name)

/-- The first function of the name. -/
def function? (p : Program) (name : String) : Option Function :=
  p.functions.find? (·.name = name)

end Program

/-- A program in its envelope. -/
structure Model where
  irVersion : Int64
  producerName : String
  producerVersion : String
  domain : String
  modelVersion : Int64
  program : Program

namespace Model

/-! ## What the envelope says -/

/-- The version of the program format. -/
def currentVersion : Int64 := 1

def producer : String := "pmf"

def producerRelease : String := "0.1.0"

def defaultName : String := "model"

def defaultDomain : String := "ai.pmf"

end Model

end ModelExport
