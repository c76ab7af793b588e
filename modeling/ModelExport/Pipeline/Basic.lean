import ModelExport.Column.Schema
import ModelExport.Context.Basic

/-!
# Pipelines

A pipeline is a source schema followed by a chain of stages. What a stage
contributes to an export is any `Build`, so a statement about all
pipelines is one about all behaviours of their stages.
-/

namespace ModelExport

/-- The ability of a stage to contribute to an export. -/
structure Capability where
  /-- Whether the stage can be exported in the state it is in. -/
  ready : Bool := true
  /-- Reads the columns through their current variables and binds those it produces. -/
  emit : Build Unit

/-- A stage: its name, the columns seen behind it, and its ability
to be exported, if it has one. -/
structure Stage where
  name : String
  schema : Schema
  capability : Option Capability := none

namespace Stage

/-- The contribution of a stage that can be exported now. -/
def exporter? (s : Stage) : Option (Build Unit) :=
  match s.capability with
  | some c => if c.ready then some c.emit else none
  | none => none

def isExportable (s : Stage) : Bool := s.exporter?.isSome

end Stage

/-- A source of rows followed by stages, in the order in which rows pass them. -/
structure Pipeline where
  source : Schema
  stages : List Stage := []

namespace Pipeline

def size (p : Pipeline) : Nat := p.stages.length

def isEmpty (p : Pipeline) : Bool := p.stages.isEmpty

/-- The columns at the end of the pipeline. -/
def terminal (p : Pipeline) : Schema :=
  match p.stages.getLast? with
  | some s => s.schema
  | none => p.source

/-- Appends a stage behind the present end. -/
def push (p : Pipeline) (s : Stage) : Pipeline := { p with stages := p.stages ++ [s] }

end Pipeline

end ModelExport
