import ModelExport.Export.Options
import ModelExport.Pipeline.Replay
import ModelExport.Scorer.Basic

/-!
# Exporting a pipeline

An export walks the pipeline back, puts the scorer of the predictor at
the end, replays the stages into a fresh context and assembles the model
from it. What could not be exported and did not have to be is reported as
a warning.
-/

namespace ModelExport

/-- What was left out of an export. -/
inductive Warning where
  | predictorIgnored (predictor : String)
  | truncated (stage : String)
  deriving DecidableEq

namespace Warning

def message : Warning → String
  | .predictorIgnored predictor =>
      "predictor '" ++ predictor ++ "' cannot be exported; ignoring it"
  | .truncated stage =>
      "stopped walking back the pipeline at '" ++ stage ++ "' since it cannot be exported"

end Warning

/-- The result of an export. -/
structure Report where
  model : Model
  warnings : List Warning
  exportedStages : List String
  truncatedAt : Option String

/-- Options together with the way in which predictors become scorers. -/
structure Exporter where
  options : Options := {}
  resolver : Resolver := Resolver.byRoles

namespace Exporter

/-- The stage that scores at the end of the pipeline, if the predictor has
one that can be exported. -/
def scorerStage? (x : Exporter) (p : Pipeline) (predictor : Predictor) (roles : Option Roles) :
    Option Stage :=
  match x.resolver predictor p.terminal roles with
  | some scorer => if scorer.toStage.isExportable then some scorer.toStage else none
  | none => none

/-- The scorer to export and the warning that there is none, or the error
that there has to be one. -/
def scorerFor (x : Exporter) (p : Pipeline) (predictor : Option Predictor)
    (roles : Option Roles) : Except ExportError (Option Stage × List Warning) :=
  match predictor, x.options.loadPredictor with
  | _, some false => .ok (none, [])
  | none, some true => .error .noPredictor
  | none, none => .ok (none, [])
  | some predictor, demand =>
      match x.scorerStage? p predictor roles with
      | some stage => .ok (some stage, [])
      | none =>
          if demand = some true then .error (.predictorNotExportable predictor.name)
          else .ok (none, [.predictorIgnored predictor.name])

/-- What the model says about itself. -/
def envelope (x : Exporter) : Envelope where
  name := x.options.modelName
  domain := x.options.modelDomain

/-- The plan of the pipeline with the scorer at its end. -/
def planFor (p : Pipeline) (scorer : Option Stage) : Plan :=
  match scorer with
  | some stage => p.walk.pushTerminal stage
  | none => p.walk

/-- Replays the plan into a fresh context and assembles the model. -/
def carryOut (x : Exporter) (plan : Plan) (warnings : List Warning) : Except ExportError Report :=
  match plan.replay x.options.inputsToDrop x.options.outputsToDrop {} with
  | .error e _ => .error e
  | .ok _ context =>
      .ok { model := context.assemble x.envelope
            warnings := warnings ++ plan.truncatedAt?.toList.map .truncated
            exportedStages := plan.stageNames
            truncatedAt := plan.truncatedAt? }

/-- Exports the pipeline. -/
def run (x : Exporter) (p : Pipeline) (predictor : Option Predictor) (roles : Option Roles) :
    Except ExportError Report := do
  x.options.validate
  let (scorer, warnings) ← x.scorerFor p predictor roles
  x.carryOut (planFor p scorer) warnings

end Exporter

end ModelExport
