import ModelExport.Export.Error
import ModelExport.Pipeline.Walk
import ModelExport.Table.Sorted

/-!
# Replaying a plan

A plan is replayed into a context from its source to its end: an input
for each visible column it starts from, the contribution of each stage, an
output for each visible column it ends with. Dropped inputs are left out
on both sides, dropped outputs on the output side. The first error ends
the replay, with the context as it then is.
-/

namespace ModelExport

/-- A part of an export: like a `Build`, with the errors of an export. -/
abbrev Replay := EStateM ExportError Context

namespace Replay

/-- A contribution whose error is reported as the given one. -/
def ofBuild {α : Type} (report : BuildError → ExportError) (b : Build α) : Replay α := fun c =>
  match b c with
  | .ok a c => .ok a c
  | .error e c => .error (report e) c

/-- Registers an input for each of the columns. -/
def inputs : List Column → Replay Unit
  | [] => pure ()
  | column :: columns => do
      let _ ← ofBuild .build (Build.addInput column.type column.name)
      inputs columns

/-- Lets each of the stages contribute. -/
def stages : List Stage → Replay Unit
  | [] => pure ()
  | stage :: rest =>
      match stage.exporter? with
      | none => throw (.notExportable stage.name)
      | some emit => do
          ofBuild (.stageFailed stage.name) emit
          stages rest

/-- Registers an output for each of the columns. -/
def outputs : List Column → Replay Unit
  | [] => pure ()
  | column :: columns => do
      let _ ← ofBuild .build (Build.lookupOrAllocate column.name)
      let _ ← ofBuild .build (Build.addOutput column.type column.name)
      outputs columns

end Replay

namespace Schema

/-- The visible columns whose names are not in the set. -/
def kept (s : Schema) (dropped : NameSet) : List Column :=
  s.visible.filter (fun c => !dropped.contains c.name)

end Schema

namespace Plan

/-- Replays the plan. -/
def replay (p : Plan) (inputsToDrop outputsToDrop : NameSet) : Replay Unit := do
  Replay.inputs (p.source.kept inputsToDrop)
  Replay.stages p.stages
  Replay.outputs ((p.terminal.kept outputsToDrop).filter
    (fun c => !inputsToDrop.contains c.name))

end Plan

end ModelExport
