import ModelExport.Proofs.Export.Run
import ModelExport.Proofs.Pipeline.Replay

/-!
# The choice of the scorer

An export looks at its predictor once, when it chooses the scorer, and the
choice is all that the rest sees of it: `Exporter.chosen?` is the stage
that is put at the end of the plan. The choice fails only where the
predictor is demanded and there is no scorer that could be exported
(`Exporter.scorerFor_cases`). What is chosen can be exported, and so can
every other stage of the plan (`Exporter.allExportable_planFor`).
-/

namespace ModelExport

namespace Exporter

variable {x : Exporter} {p : Pipeline} {predictor : Option Predictor} {roles : Option Roles}

/-! ## The chosen scorer -/

/-- There is no scorer that could be exported: no predictor, none that can
be bound, or its mapper is not ready. -/
def NoScorer (x : Exporter) (p : Pipeline) (predictor : Option Predictor) (roles : Option Roles) :
    Prop :=
  ∀ pr ∈ predictor, ∀ scorer ∈ x.resolver pr p.terminal roles, scorer.mapper.ready = false

/-- The scorer that the export puts at the end of the pipeline, if any. -/
def chosen? (x : Exporter) (p : Pipeline) (predictor : Option Predictor) (roles : Option Roles) :
    Option Stage :=
  if x.options.loadPredictor = some false then none
  else predictor.bind fun pr => x.scorerStage? p pr roles

theorem isExportable_toStage (s : Scorer) : s.toStage.isExportable = s.mapper.ready := by
  unfold Stage.isExportable Stage.exporter? Scorer.toStage
  cases s.mapper.ready <;> rfl

theorem scorerStage?_eq_none {pr : Predictor} :
    x.scorerStage? p pr roles = none ↔ x.NoScorer p (some pr) roles := by
  unfold scorerStage?
  constructor
  · intro h pr' hpr scorer hscorer
    obtain rfl := Option.mem_some_iff.mp hpr
    rw [Option.mem_def.mp hscorer] at h
    dsimp only at h
    split at h
    · cases h
    · next hready =>
        rw [isExportable_toStage] at hready
        exact Bool.eq_false_iff.mpr hready
  · intro h
    cases hscorer : x.resolver pr p.terminal roles with
    | none => rfl
    | some scorer =>
        have hready := h pr rfl scorer hscorer
        rw [← isExportable_toStage] at hready
        dsimp only
        rw [if_neg (by rw [hready]; decide)]

theorem noScorer_none : x.NoScorer p none roles := fun _ hpr => absurd hpr (Option.not_mem_none _)

theorem chosen?_none : x.chosen? p none roles = none := by
  unfold chosen?
  split <;> rfl

theorem chosen?_some (hload : x.options.loadPredictor ≠ some false) (pr : Predictor) :
    x.chosen? p (some pr) roles = x.scorerStage? p pr roles :=
  if_neg hload

theorem chosen?_eq_some {stage : Stage} (h : x.chosen? p predictor roles = some stage) :
    ∃ pr scorer, predictor = some pr ∧ x.resolver pr p.terminal roles = some scorer
      ∧ stage = scorer.toStage ∧ scorer.mapper.ready = true := by
  unfold chosen? at h
  split at h
  · cases h
  · obtain ⟨pr, hpr, hstage⟩ := Option.bind_eq_some_iff.mp h
    obtain ⟨scorer, hscorer, rfl, hready⟩ := scorerStage?_eq_some hstage
    exact ⟨pr, scorer, hpr, hscorer, rfl, (isExportable_toStage scorer).symm.trans hready⟩

/-- The choice fails only where the predictor is demanded and there is no scorer. -/
theorem scorerFor_cases (x : Exporter) (p : Pipeline) (predictor : Option Predictor)
    (roles : Option Roles) :
    (x.options.loadPredictor = some true ∧ x.NoScorer p predictor roles
        ∧ x.scorerFor p predictor roles
          = .error (predictor.elim .noPredictor fun pr => .predictorNotExportable pr.name))
      ∨ ((x.options.loadPredictor = some true → ¬ x.NoScorer p predictor roles)
        ∧ ∃ warnings, x.scorerFor p predictor roles
          = .ok (x.chosen? p predictor roles, warnings)) := by
  by_cases hforbidden : x.options.loadPredictor = some false
  · refine Or.inr ⟨?_, [], ?_⟩
    · intro hdemand
      rw [hforbidden] at hdemand
      cases hdemand
    · rw [scorerFor_forbidden hforbidden, chosen?, if_pos hforbidden]
  cases predictor with
  | none =>
      rw [scorerFor_none hforbidden]
      by_cases hdemand : x.options.loadPredictor = some true
      · exact Or.inl ⟨hdemand, noScorer_none, if_pos hdemand⟩
      · exact Or.inr ⟨fun h => absurd h hdemand, [], by rw [if_neg hdemand, chosen?_none]⟩
  | some pr =>
      rw [scorerFor_some hforbidden, chosen?_some hforbidden]
      cases hstage : x.scorerStage? p pr roles with
      | some stage =>
          refine Or.inr ⟨fun _ hno => ?_, [], rfl⟩
          rw [scorerStage?_eq_none.mpr hno] at hstage
          cases hstage
      | none =>
          by_cases hdemand : x.options.loadPredictor = some true
          · exact Or.inl ⟨hdemand, scorerStage?_eq_none.mp hstage, if_pos hdemand⟩
          · exact Or.inr ⟨fun h => absurd h hdemand, [.predictorIgnored pr.name], if_neg hdemand⟩

theorem eq_chosen? {chosen : Option Stage} {warnings : List Warning}
    (h : x.scorerFor p predictor roles = .ok (chosen, warnings)) :
    chosen = x.chosen? p predictor roles := by
  rcases x.scorerFor_cases p predictor roles with ⟨-, -, hmissed⟩ | ⟨-, warnings', hchosen⟩
  · rw [hmissed] at h
    cases h
  · rw [hchosen] at h
    injection h with h
    exact (congrArg Prod.fst h).symm

theorem allExportable_planFor (x : Exporter) (p : Pipeline) (predictor : Option Predictor)
    (roles : Option Roles) : AllExportable (planFor p (x.chosen? p predictor roles)).stages := by
  have hwalk : AllExportable p.walk.stages := by
    rcases exportable_or_last_unexportable p.stages with hall | ⟨up, halt, down, hp, hhalt, hdown⟩
    · rw [Pipeline.walk_of_exportable hall]
      exact hall
    · rw [Pipeline.walk_of_halt hp hhalt hdown]
      exact hdown
  cases hchosen : x.chosen? p predictor roles with
  | none => exact hwalk
  | some stage =>
      obtain ⟨pr, scorer, -, -, rfl, hready⟩ := chosen?_eq_some hchosen
      exact hwalk.append (.cons ((isExportable_toStage scorer).trans hready) .nil)

/-! ## The steps of an export -/

theorem run_of_invalid {e : ExportError} (h : x.options.validate = .error e) :
    x.run p predictor roles = .error e := by
  unfold run
  rw [h]
  rfl

theorem run_of_unmet (hvalid : x.options.validate = .ok ()) {e : ExportError}
    (h : x.scorerFor p predictor roles = .error e) : x.run p predictor roles = .error e := by
  unfold run
  rw [hvalid, h]
  rfl

theorem run_of_chosen (hvalid : x.options.validate = .ok ()) {chosen : Option Stage}
    {warnings : List Warning} (h : x.scorerFor p predictor roles = .ok (chosen, warnings)) :
    x.run p predictor roles = x.carryOut (planFor p chosen) warnings := by
  unfold run
  rw [hvalid, h]
  rfl

theorem carryOut_eq_error_iff {plan : Plan} (hall : AllExportable plan.stages)
    {warnings : List Warning} {e : ExportError} :
    x.carryOut plan warnings = .error e
      ↔ plan.FailsWith x.options.inputsToDrop x.options.outputsToDrop e := by
  rw [← Plan.replay_eq_error_iff hall, carryOut]
  cases plan.replay x.options.inputsToDrop x.options.outputsToDrop {} with
  | ok u c => simp
  | error e' c => simp

/-- Once the options are accepted and a demand is met, all errors come from the replay. -/
theorem run_eq_error_iff_of_met (hvalid : x.options.validate = .ok ())
    (hmet : x.options.loadPredictor = some true → ¬ x.NoScorer p predictor roles)
    {e : ExportError} :
    x.run p predictor roles = .error e
      ↔ (planFor p (x.chosen? p predictor roles)).FailsWith x.options.inputsToDrop
          x.options.outputsToDrop e := by
  rcases x.scorerFor_cases p predictor roles with ⟨hdemand, hno, -⟩ | ⟨-, warnings, hchosen⟩
  · exact absurd hno (hmet hdemand)
  · rw [run_of_chosen hvalid hchosen,
      carryOut_eq_error_iff (x.allExportable_planFor p predictor roles)]

/-- A model comes from a replay of the plan with the chosen scorer. -/
theorem exists_replay {report : Report} (h : x.run p predictor roles = .ok report) :
    ∃ c, (planFor p (x.chosen? p predictor roles)).replay x.options.inputsToDrop
        x.options.outputsToDrop {} = .ok () c
      ∧ report.model = c.assemble x.envelope := by
  obtain ⟨chosen, warnings, hscorer, hrun⟩ := run_eq_ok h
  obtain rfl := eq_chosen? hscorer
  obtain ⟨c, hreplay, rfl⟩ := carryOut_eq_ok hrun
  exact ⟨c, hreplay, rfl⟩

end Exporter

end ModelExport
