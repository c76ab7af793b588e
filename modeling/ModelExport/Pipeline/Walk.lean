import ModelExport.Pipeline.Basic

/-!
# Walking a pipeline back

An export covers the stages at the end of a pipeline up to the last one
that cannot be exported. `Pipeline.walk` goes from the end towards the
source and stops for good at the first stage that cannot be exported;
the stages before that one are not looked at. The result is a `Plan`: the
stages to export, the columns they start from and the columns they end
with.
-/

namespace ModelExport

/-- Where a walk stopped. -/
inductive Stop where
  | source
  /-- The stage at this position of the pipeline cannot be exported. -/
  | unexportable (index : Nat) (stage : String)
  deriving DecidableEq

namespace Stop

/-- The stage at which the walk stopped before it came to the source. -/
def stage? : Stop → Option String
  | .source => none
  | .unexportable _ stage => some stage

end Stop

/-- The stages to export, oldest first, between the columns they start
from and the columns they end with. -/
structure Plan where
  source : Schema
  stages : List Stage
  terminal : Schema
  stop : Stop

namespace Plan

def stageNames (p : Plan) : List String := p.stages.map (·.name)

def size (p : Plan) : Nat := p.stages.length

def isEmpty (p : Plan) : Bool := p.stages.isEmpty

def truncatedAt? (p : Plan) : Option String := p.stop.stage?

/-- Appends a stage at the end; the plan then ends with its columns. -/
def pushTerminal (p : Plan) (s : Stage) : Plan :=
  { p with stages := p.stages ++ [s], terminal := s.schema }

end Plan

namespace Pipeline

/-- Walks back over the stages that remain, nearest first. The stages
passed so far are oldest first. -/
def walkBack (source terminal : Schema) : List Stage → List Stage → Plan
  | [], passed => { source, stages := passed, terminal, stop := .source }
  | s :: earlier, passed =>
      if s.isExportable then walkBack source terminal earlier (s :: passed)
      else { source := s.schema, stages := passed, terminal
             stop := .unexportable earlier.length s.name }

/-- The stages at the end of the pipeline that can be exported together. -/
def walk (p : Pipeline) : Plan := walkBack p.source p.terminal p.stages.reverse []

end Pipeline

end ModelExport
