import ModelExport.Proofs.Context.Outcome
import ModelExport.Proofs.Export.Choice
import ModelExport.Proofs.Pipeline.Walk

/-!
# Exports of scripted stages

A stage is scripted when it contributes through the operations of the
context, in any order, with any arguments, and going by the answers as it
likes. The export itself does no more than that: the replay registers
inputs and outputs, and a scorer declares its columns before its mapper
goes on. So the model of an export of scripted stages is assembled from
the context that some calls leave (`Exporter.model_of_calls`), and what
holds of all runs of calls holds of all such models.
-/

namespace ModelExport

open Build

/-! ## Parts of an export -/

theorem after_ofBuild {α : Type} (report : BuildError → ExportError) (b : Build α) (c : Context) :
    after (Replay.ofBuild report b) c = after b c := by
  unfold after Replay.ofBuild
  cases b c <;> rfl

theorem ByCalls.ofBuild {α : Type} {b : Build α} (h : ByCalls b)
    (report : BuildError → ExportError) : ByCalls (Replay.ofBuild report b) := by
  intro c
  rw [after_ofBuild]
  exact h c

theorem byCalls_addIntermediate (type : ColumnType) (column : String) :
    ByCalls (addIntermediate type column) :=
  .of_map (byCalls_perform (.addIntermediate type column))

theorem byCalls_addInput (type : ColumnType) (column : String) : ByCalls (addInput type column) :=
  .of_map (byCalls_perform (.addInput type column))

theorem byCalls_addOutput (type : ColumnType) (column : String) :
    ByCalls (addOutput type column) :=
  .of_map (byCalls_perform (.addOutput type column))

theorem byCalls_lookupOrAllocate (column : String) : ByCalls (lookupOrAllocate column) :=
  .of_map (byCalls_perform (.lookupOrAllocate column))

theorem byCalls_addExpr (e : Expr) : ByCalls (addExpr e) :=
  fun c => Context.Reaches.step (.addExpr e) c

theorem byCalls_addExprs (es : List Expr) : ByCalls (addExprs es) :=
  fun c => Context.Reaches.step (.addExprs es) c

theorem byCalls_elementKind (kind : RawKind) : ByCalls (elementKind kind) := by
  unfold elementKind
  cases kind.elementKind? with
  | none => exact byCalls_throw _
  | some k => exact byCalls_pure _

/-! ## Scripts -/

/-- The stage contributes through the operations of the context. -/
def Stage.Scripted (s : Stage) : Prop := ∀ emit ∈ s.exporter?, ByCalls emit

def Pipeline.Scripted (p : Pipeline) : Prop := ∀ s ∈ p.stages, s.Scripted

/-- The mapper assigns its variables through the operations of the context. -/
def Mapper.Scripted (m : Mapper) : Prop := ∀ names, ByCalls (m.emit names)

/-- A stage that appends a copy of a column. -/
def Stage.copying (input : Schema) (column : Column) (copy : String) : Stage where
  name := "Copy"
  schema := input.withColumn copy column.type
  capability := some {
    emit := do
      let held ← lookupOrAllocate column.name
      let name ← addIntermediate column.type copy
      addExpr (.bindOne name (.variable held)) }

theorem Stage.scripted_copying (input : Schema) (column : Column) (copy : String) :
    (Stage.copying input column copy).Scripted := by
  intro emit hemit
  obtain rfl := Option.mem_some_iff.mp hemit
  exact (byCalls_lookupOrAllocate _).bind fun _ =>
    (byCalls_addIntermediate _ _).bind fun _ => byCalls_addExpr _

/-- A mapper whose one score is a column as it is. -/
def Mapper.passing (column : Column) : Mapper where
  schema := Schema.withColumn {} "Score" column.type
  emit names := do
    let held ← lookupOrAllocate column.name
    addExprs (names.map fun name => .assign name (.variable held))

theorem Mapper.scripted_passing (column : Column) : (Mapper.passing column).Scripted :=
  fun _ => (byCalls_lookupOrAllocate _).bind fun _ => byCalls_addExprs _

namespace Scorer

theorem byCalls_declareOutput (column : Column) : ByCalls (declareOutput column) :=
  (byCalls_elementKind _).bind fun _ =>
    (byCalls_addIntermediate _ _).bind fun _ => (byCalls_addExpr _).bind fun _ => byCalls_pure _

theorem byCalls_declareOutputs (columns : List Column) : ByCalls (declareOutputs columns) := by
  induction columns with
  | nil => exact byCalls_pure _
  | cons column columns ih =>
      exact (byCalls_declareOutput column).bind fun _ => ih.bind fun _ => byCalls_pure _

theorem scripted_toStage {s : Scorer} (h : s.mapper.Scripted) : s.toStage.Scripted := by
  intro emit hemit
  have hbody : ByCalls s.emit := (byCalls_declareOutputs _).bind h
  unfold Stage.exporter? toStage at hemit
  cases hready : s.mapper.ready with
  | true =>
      simp only [hready, if_true] at hemit
      obtain rfl := Option.mem_some_iff.mp hemit
      exact hbody
  | false =>
      simp only [hready] at hemit
      exact absurd hemit (Option.not_mem_none _)

end Scorer

/-! ## The replay -/

namespace Replay

theorem byCalls_inputs (columns : List Column) : ByCalls (inputs columns) := by
  induction columns with
  | nil => exact byCalls_pure _
  | cons column columns ih =>
      exact ((byCalls_addInput column.type column.name).ofBuild _).bind fun _ => ih

theorem byCalls_stages {rest : List Stage} (h : ∀ s ∈ rest, s.Scripted) :
    ByCalls (stages rest) := by
  induction rest with
  | nil => exact byCalls_pure _
  | cons s rest ih =>
      have hrest : ByCalls (stages rest) := ih fun t ht => h t (List.mem_cons_of_mem _ ht)
      unfold stages
      cases hs : s.exporter? with
      | none => exact byCalls_throw _
      | some emit =>
          have hemit : ByCalls emit := h s (List.mem_cons_self ..) emit hs
          exact (hemit.ofBuild _).bind fun _ => hrest

theorem byCalls_outputs (columns : List Column) : ByCalls (outputs columns) := by
  induction columns with
  | nil => exact byCalls_pure _
  | cons column columns ih =>
      exact ((byCalls_lookupOrAllocate column.name).ofBuild _).bind fun _ =>
        ((byCalls_addOutput column.type column.name).ofBuild _).bind fun _ => ih

end Replay

theorem Plan.byCalls_replay {p : Plan} (h : ∀ s ∈ p.stages, s.Scripted)
    (inputsToDrop outputsToDrop : NameSet) : ByCalls (p.replay inputsToDrop outputsToDrop) :=
  (Replay.byCalls_inputs _).bind fun _ =>
    (Replay.byCalls_stages h).bind fun _ => Replay.byCalls_outputs _

/-! ## The export -/

namespace Exporter

variable {x : Exporter} {p : Pipeline} {predictor : Option Predictor} {roles : Option Roles}

/-- The stages of the plan are stages of the pipeline, and perhaps the scorer. -/
theorem scripted_planFor (hp : p.Scripted)
    (hm : ∀ pr ∈ predictor, ∀ scorer ∈ x.resolver pr p.terminal roles, scorer.mapper.Scripted) :
    ∀ s ∈ (planFor p (x.chosen? p predictor roles)).stages, s.Scripted := by
  intro s hs
  cases hchosen : x.chosen? p predictor roles with
  | none =>
      rw [hchosen] at hs
      exact hp s (p.stages_walk_subset hs)
  | some stage =>
      rw [hchosen] at hs
      obtain ⟨pr, scorer, hpr, hresolved, rfl, -⟩ := chosen?_eq_some hchosen
      rcases List.mem_append.mp hs with hs | hs
      · exact hp s (p.stages_walk_subset hs)
      · obtain rfl := List.mem_singleton.mp hs
        exact Scorer.scripted_toStage (hm pr hpr scorer hresolved)

theorem model_of_calls {report : Report} (hp : p.Scripted)
    (hm : ∀ pr ∈ predictor, ∀ scorer ∈ x.resolver pr p.terminal roles, scorer.mapper.Scripted)
    (h : x.run p predictor roles = .ok report) :
    ∃ calls, report.model = (Call.run calls {}).2.assemble x.envelope := by
  obtain ⟨c, hreplay, hmodel⟩ := exists_replay h
  have hcalls := Plan.byCalls_replay (scripted_planFor hp hm) x.options.inputsToDrop
    x.options.outputsToDrop
  obtain ⟨calls, rfl⟩ := hcalls.reaches hreplay
  exact ⟨calls, hmodel⟩

end Exporter

end ModelExport
