import ModelExport.Pipeline.Basic
import ModelExport.Scorer.Role

/-!
# Scorers

A predictor is bound to the columns at the end of a pipeline, which gives
a mapper, and the mapper is made into a stage that appends the columns it
produces. Exporting that stage first declares a variable for each visible
column of the mapper, with the neutral value of its kind, and then hands
the variables to the mapper, which is to assign them.
-/

namespace ModelExport

/-- A predictor bound to input columns. -/
structure Mapper where
  /-- The columns that it produces. -/
  schema : Schema
  ready : Bool := true
  /-- Emits the logic; the results go into the given variables, one for
  each visible column. -/
  emit : List String → Build Unit

/-- A trained predictor. It may have no mapper for a schema and roles. -/
structure Predictor where
  name : String
  bind? : Schema → Roles → Option Mapper

/-- A stage at the end of a pipeline that appends a mapper's columns. -/
structure Scorer where
  name : String
  mapper : Mapper
  schema : Schema

namespace Scorer

def ofMapper (name : String) (input : Schema) (mapper : Mapper) : Scorer :=
  { name, mapper, schema := input.extend mapper.schema }

/-- The value that a variable for the column starts with. -/
def neutral (type : ColumnType) (kind : ElementKind) : Value :=
  if type.isVector then .empty kind else .zero kind

/-- Takes a variable for a column of the mapper and gives it the neutral value. -/
def declareOutput (column : Column) : Build String := do
  let kind ← Build.elementKind column.type.rawKind
  let name ← Build.addIntermediate column.type column.name
  Build.addExpr (.bindOne name (.literal (neutral column.type kind)))
  return name

/-- Takes a variable for each of the columns. -/
def declareOutputs : List Column → Build (List String)
  | [] => return []
  | column :: columns => do
      let name ← declareOutput column
      let names ← declareOutputs columns
      return name :: names

def emit (s : Scorer) : Build Unit := do
  let names ← declareOutputs s.mapper.schema.visible
  s.mapper.emit names

def toStage (s : Scorer) : Stage where
  name := s.name
  schema := s.schema
  capability := some { ready := s.mapper.ready, emit := s.emit }

end Scorer

/-- How a predictor is made into a scorer for the columns at the end of a
pipeline, with the roles that were given, if any. -/
abbrev Resolver := Predictor → Schema → Option Roles → Option Scorer

namespace Resolver

/-- Binds the predictor by the given roles, else by the usual roles whose
columns are there. -/
def byRoles : Resolver := fun predictor input roles =>
  (predictor.bind? input (roles.getD (Roles.defaultsFor input))).map
    (Scorer.ofMapper (predictor.name ++ "Scorer") input)

end Resolver

end ModelExport
