import ModelExport.Proofs.Export.Script

/-!
# Exports depend on the end of a pipeline

Two equalities of exports. A scorer that the exporter finds for a
predictor is exported like a stage that was in the pipeline all along:
the one is pushed onto the plan after the walk, the other is met by the
walk, and `Pipeline.walk_push` says that the plans are equal. And a stage
that cannot be exported cuts the pipeline: behind it the export goes on as
if its columns were a source, with the same errors, and the report says
where the cut is. What is in front of such a stage has no influence at
all, neither on the scorer, which is bound to the columns at the end
(`scorerFor_congr`), nor on the plan (`planFor_of_halt`).
-/

namespace ModelExport

/-- The report of an export that stopped at the stage. -/
def Report.truncatedBy (stage : String) (r : Report) : Report :=
  { r with warnings := r.warnings ++ [.truncated stage], truncatedAt := some stage }

namespace Exporter

variable {x : Exporter} {p : Pipeline} {predictor : Option Predictor} {roles : Option Roles}

/-- The exporter, with predictors taken along when they can be. -/
def undemanding (x : Exporter) : Exporter :=
  { x with options := { x.options with loadPredictor := none } }

/-! ## What the steps look at -/

/-- The scorer depends on the pipeline by the columns at its end only. -/
theorem scorerFor_congr {q : Pipeline} (h : p.terminal = q.terminal) :
    x.scorerFor p predictor roles = x.scorerFor q predictor roles := by
  unfold scorerFor scorerStage?
  rw [h]

theorem truncatedAt?_of_source {plan : Plan} (h : plan.stop = .source) :
    plan.truncatedAt? = none := by
  unfold Plan.truncatedAt?
  rw [h]
  rfl

/-- The replay does not look at the stop. -/
theorem carryOut_of_stop {plan : Plan} (h : plan.stop = .source) (i : Nat) (stage : String)
    (warnings : List Warning) :
    x.carryOut { plan with stop := .unexportable i stage } warnings
      = (x.carryOut plan warnings).map (Report.truncatedBy stage) := by
  have hreplay : Plan.replay { plan with stop := .unexportable i stage } x.options.inputsToDrop
      x.options.outputsToDrop = plan.replay x.options.inputsToDrop x.options.outputsToDrop := rfl
  unfold carryOut
  rw [hreplay]
  cases plan.replay x.options.inputsToDrop x.options.outputsToDrop {} with
  | error e c => rfl
  | ok u c =>
      show Except.ok _ = Except.ok _
      rw [truncatedAt?_of_source h, Report.truncatedBy, Option.toList_none, List.map_nil,
        List.append_nil]
      rfl

/-! ## The scorer as a stage -/

theorem scorerFor_eq_of_resolver {predictor : Predictor} {scorer : Scorer}
    (hload : x.options.loadPredictor ≠ some false)
    (hscorer : x.resolver predictor p.terminal roles = some scorer)
    (hready : scorer.toStage.isExportable = true) :
    x.scorerFor p (some predictor) roles = .ok (some scorer.toStage, []) := by
  have hstage : x.scorerStage? p predictor roles = some scorer.toStage := by
    unfold scorerStage?
    rw [hscorer]
    exact if_pos hready
  rw [scorerFor_some hload, hstage]

/-- Whether the scorer comes from the predictor or is the last stage, the
export is the same: the report, or the error. -/
theorem scorer_as_stage (x : Exporter) (p : Pipeline) (predictor : Predictor)
    (roles roles' : Option Roles) {scorer : Scorer} (hload : x.options.loadPredictor ≠ some false)
    (hscorer : x.resolver predictor p.terminal roles = some scorer)
    (hready : scorer.toStage.isExportable = true) :
    x.run p (some predictor) roles = x.undemanding.run (p.push scorer.toStage) none roles' := by
  have hvalid : x.undemanding.options.validate = x.options.validate := rfl
  have hnone : x.undemanding.scorerFor (p.push scorer.toStage) none roles' = .ok (none, []) := rfl
  have hplan : planFor (p.push scorer.toStage) none = planFor p (some scorer.toStage) :=
    p.walk_push hready
  unfold run
  rw [hvalid, hnone, scorerFor_eq_of_resolver hload hscorer hready]
  cases x.options.validate with
  | error e => rfl
  | ok u =>
      show x.carryOut (planFor p (some scorer.toStage)) [] = x.undemanding.carryOut _ []
      rw [hplan]
      rfl

theorem scorer_as_stage_behind_halt :
    let column : Column := { name := "x", type := .ofKind .float32 }
    let source : Schema := { columns := [column] }
    let predictor : Predictor := { name := "Tree", bind? := fun _ _ => some (.passing column) }
    let x : Exporter := { options := { loadPredictor := some true } }
    let p : Pipeline := ⟨source, [{ name := "Hash", schema := source }, .copying source column "y"]⟩
    let scorer : Scorer := .ofMapper "TreeScorer" p.terminal (.passing column)
    x.run p (some predictor) none = x.undemanding.run (p.push scorer.toStage) none none
      ∧ (x.run p (some predictor) none).toOption.map (·.exportedStages)
        = some ["Copy", "TreeScorer"] := by
  intro column source predictor x p scorer
  exact ⟨scorer_as_stage x p predictor none none (by decide) rfl rfl, by decide +kernel⟩

/-! ## The halting stage as a source -/

section Halt

variable {halt : Stage} {down : List Stage}

theorem stop_planFor_of_exportable (h : AllExportable p.stages) (chosen : Option Stage) :
    (planFor p chosen).stop = .source := by
  cases chosen with
  | none => exact congrArg Plan.stop (Pipeline.walk_of_exportable h)
  | some stage => exact congrArg Plan.stop (Pipeline.walk_of_exportable h)

theorem planFor_of_halt (hhalt : halt.isExportable = false) (hdown : AllExportable down)
    (source : Schema) (up : List Stage) (chosen : Option Stage) :
    planFor ⟨source, up ++ halt :: down⟩ chosen
      = { planFor ⟨halt.schema, down⟩ chosen with
          stop := .unexportable up.length halt.name } := by
  have hwalk : Pipeline.walk ⟨source, up ++ halt :: down⟩
      = { Pipeline.walk ⟨halt.schema, down⟩ with stop := .unexportable up.length halt.name } := by
    rw [Pipeline.walk_of_halt rfl hhalt hdown, Pipeline.walk_of_exportable hdown,
      Pipeline.terminal_of_behind]
  cases chosen with
  | none => exact hwalk
  | some stage =>
      show Plan.pushTerminal _ stage = _
      rw [hwalk]
      rfl

theorem run_append_halt (hhalt : halt.isExportable = false) (hdown : AllExportable down)
    (source : Schema) (up : List Stage) :
    x.run ⟨source, up ++ halt :: down⟩ predictor roles
      = (x.run ⟨halt.schema, down⟩ predictor roles).map (Report.truncatedBy halt.name) := by
  unfold run
  rw [scorerFor_congr (Pipeline.terminal_of_behind source up down halt)]
  cases x.options.validate with
  | error e => rfl
  | ok u =>
      cases x.scorerFor ⟨halt.schema, down⟩ predictor roles with
      | error e => rfl
      | ok r =>
          obtain ⟨chosen, warnings⟩ := r
          show x.carryOut (planFor _ chosen) warnings = (x.carryOut _ warnings).map _
          rw [planFor_of_halt hhalt hdown]
          exact carryOut_of_stop (stop_planFor_of_exportable hdown chosen) _ _ _

/-- An export that comes to the source reports no truncation. -/
theorem report_of_exportable {report : Report} (h : AllExportable p.stages)
    (hrun : x.run p predictor roles = .ok report) :
    report.truncatedAt = none
      ∧ ∀ w ∈ report.warnings, ∃ pr, predictor = some pr ∧ w = .predictorIgnored pr.name := by
  obtain ⟨chosen, warnings, hscorer, hcarry⟩ := run_eq_ok hrun
  obtain ⟨c, -, rfl⟩ := carryOut_eq_ok hcarry
  have hnone : (planFor p chosen).truncatedAt? = none :=
    truncatedAt?_of_source (stop_planFor_of_exportable h chosen)
  refine ⟨hnone, ?_⟩
  intro w hw
  rw [hnone, Option.toList_none, List.map_nil, List.append_nil] at hw
  rcases scorerFor_eq_ok hscorer with ⟨-, hwarnings⟩ | ⟨_, _, _, _, _, rfl⟩
  · exact hwarnings w hw
  · exact absurd hw List.not_mem_nil

end Halt

/-- The stage where the walk stops is a source to what is behind it, and
its columns are all that the export takes from there and in front of it. -/
theorem halt_as_source (x : Exporter) (p : Pipeline) (predictor : Option Predictor)
    (roles : Option Roles) {i : Nat} {name : String} (h : p.walk.stop = .unexportable i name) :
    ∃ halt, p.stages[i]? = some halt ∧ halt.name = name ∧ halt.isExportable = false
      ∧ x.run p predictor roles
          = (x.run ⟨halt.schema, p.stages.drop (i + 1)⟩ predictor roles).map
              (Report.truncatedBy name)
      ∧ (∀ report, x.run ⟨halt.schema, p.stages.drop (i + 1)⟩ predictor roles = .ok report →
          report.truncatedAt = none
            ∧ ∀ w ∈ report.warnings, ∃ pr, predictor = some pr ∧ w = .predictorIgnored pr.name)
      ∧ ∀ (source : Schema) (up : List Stage),
          x.run ⟨source, up ++ halt :: p.stages.drop (i + 1)⟩ predictor roles
            = x.run p predictor roles := by
  obtain ⟨up, halt, down, hp, hi, hname, hhalt, hdown⟩ := Pipeline.halt_of_stop h
  have hat : p.stages[i]? = some halt := by
    rw [hp, ← hi, List.getElem?_append_right (Nat.le_refl _), Nat.sub_self]
    rfl
  have hdrop : p.stages.drop (i + 1) = down := by
    rw [hp, ← hi, List.drop_append, List.drop_of_length_le (Nat.le_succ _), Nat.add_sub_cancel_left]
    rfl
  have hcut : x.run p predictor roles
      = (x.run ⟨halt.schema, down⟩ predictor roles).map (Report.truncatedBy name) := by
    have hrun : x.run ⟨p.source, up ++ halt :: down⟩ predictor roles
        = (x.run ⟨halt.schema, down⟩ predictor roles).map (Report.truncatedBy halt.name) :=
      run_append_halt hhalt hdown p.source up
    rwa [← hp, hname] at hrun
  refine ⟨halt, hat, hname, hhalt, ?_, ?_, ?_⟩
  · rw [hdrop]
    exact hcut
  · rw [hdrop]
    exact fun report hrun => report_of_exportable hdown hrun
  · intro source front
    rw [hdrop, hcut, run_append_halt hhalt hdown, hname]

theorem halt_as_source_hash :
    let column : Column := { name := "x", type := .ofKind .float32 }
    let source : Schema := { columns := [column] }
    let predictor : Predictor := { name := "Tree", bind? := fun _ _ => none }
    let hash : Stage := { name := "Hash", schema := source.withColumn "h" column.type }
    let copy : Stage := .copying hash.schema column "y"
    Exporter.run {} ⟨source, [.copying source column "x", hash, copy]⟩ (some predictor) none
        = (Exporter.run {} ⟨hash.schema, [copy]⟩ (some predictor) none).map
            (Report.truncatedBy "Hash")
      ∧ (Exporter.run {} ⟨source, [.copying source column "x", hash, copy]⟩ (some predictor)
          none).toOption.map (fun r => (r.warnings, r.exportedStages))
        = some ([.predictorIgnored "Tree", .truncated "Hash"], ["Copy"]) := by
  intro column source predictor hash copy
  refine ⟨?_, by decide +kernel⟩
  obtain ⟨halt, hat, -, -, hrun, -⟩ := halt_as_source {}
    ⟨source, [.copying source column "x", hash, copy]⟩ (some predictor) none rfl
  obtain rfl := Option.some.inj hat
  exact hrun

end Exporter

end ModelExport
