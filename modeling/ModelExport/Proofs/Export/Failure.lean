import ModelExport.Proofs.Export.Choice

/-!
# How an export can fail

`Exporter.FailsWith` lists the errors of an export in the order in which
they are checked for: options that cannot be followed, a demanded
predictor that is missed, and then what the replay of the plan runs into,
from its inputs over its stages to its outputs. An export gives an error
exactly when the list does (`Exporter.fails_in_order`). Two errors that the
code can name never come about. A stage of a plan can always be
exported, because the walk and the choice of the scorer admit no others;
and an output column is never undefined, because the pass over the outputs
first makes sure that a variable holds it.
-/

namespace ModelExport

/-! ## Kinds of errors -/

namespace ExportError

/-- The options cannot be followed. -/
def isInvalidConfig : ExportError → Bool
  | .samePath _ | .emptyModelName | .malformedOptions => true
  | _ => false

/-- A predictor is demanded and cannot be exported. -/
def isConfiguration : ExportError → Bool
  | .noPredictor | .predictorNotExportable _ => true
  | _ => false

theorem isConfiguration_of_isInvalidConfig {e : ExportError} (h : e.isInvalidConfig = true) :
    e.isConfiguration = false := by
  cases e <;> first | rfl | cases h

end ExportError

theorem Options.isInvalidConfig_of_validate {o : Options} {e : ExportError}
    (h : o.validate = .error e) : e.isInvalidConfig = true := by
  unfold validate at h
  split at h
  · injection h with he
    rw [← he]
    rfl
  · split at h
    · injection h with he
      rw [← he]
      rfl
    · cases h

theorem Column.cause_of_findSome? {columns : List Column} {e : BuildError}
    (h : columns.findSome? Column.refusal? = some e) :
    e = .argument .emptyColumn ∨ ∃ kind, e = .noElementKind kind := by
  obtain ⟨column, -, hcolumn⟩ := List.exists_of_findSome?_eq_some h
  rcases Column.refusal?_eq_some hcolumn with ⟨-, rfl⟩ | ⟨-, -, rfl⟩
  · exact Or.inl rfl
  · exact Or.inr ⟨_, rfl⟩

namespace Plan.FailsWith

variable {plan : Plan} {inputsToDrop outputsToDrop : NameSet}

theorem isConfiguration {e : ExportError} (h : plan.FailsWith inputsToDrop outputsToDrop e) :
    e.isConfiguration = false := by
  cases h <;> rfl

theorem isInvalidConfig {e : ExportError} (h : plan.FailsWith inputsToDrop outputsToDrop e) :
    e.isInvalidConfig = false := by
  cases h <;> rfl

theorem ne_notExportable {e : ExportError} (h : plan.FailsWith inputsToDrop outputsToDrop e)
    (stage : String) : e ≠ .notExportable stage := by
  cases h <;> exact fun heq => ExportError.noConfusion heq

theorem cause_of_build {e : BuildError}
    (h : plan.FailsWith inputsToDrop outputsToDrop (.build e)) :
    e = .argument .emptyColumn ∨ ∃ kind, e = .noElementKind kind := by
  cases h with
  | input h => exact Column.cause_of_findSome? h
  | output _ h => exact Column.cause_of_findSome? h

end Plan.FailsWith

namespace Exporter

/-- How an export fails. Each case presupposes that those before it do not
apply, and in the last of them the parts of the replay do so in turn. -/
inductive FailsWith (x : Exporter) (p : Pipeline) (predictor : Option Predictor)
    (roles : Option Roles) : ExportError → Prop
  | options {e : ExportError} (h : x.options.validate = .error e) : FailsWith x p predictor roles e
  | missing (hvalid : x.options.validate = .ok ())
      (hdemand : x.options.loadPredictor = some true) (h : predictor = none) :
      FailsWith x p predictor roles .noPredictor
  | unready {pr : Predictor} (hvalid : x.options.validate = .ok ())
      (hdemand : x.options.loadPredictor = some true) (h : predictor = some pr)
      (hno : x.NoScorer p predictor roles) :
      FailsWith x p predictor roles (.predictorNotExportable pr.name)
  | replay {e : ExportError} (hvalid : x.options.validate = .ok ())
      (hmet : x.options.loadPredictor = some true → ¬ x.NoScorer p predictor roles)
      (h : (planFor p (x.chosen? p predictor roles)).FailsWith x.options.inputsToDrop
        x.options.outputsToDrop e) : FailsWith x p predictor roles e

variable {x : Exporter} {p : Pipeline} {predictor : Option Predictor} {roles : Option Roles}

theorem run_eq_error_iff {e : ExportError} :
    x.run p predictor roles = .error e ↔ x.FailsWith p predictor roles e := by
  constructor
  · intro h
    cases hvalid : x.options.validate with
    | error e' =>
        rw [run_of_invalid hvalid] at h
        injection h with he
        exact .options (he ▸ hvalid)
    | ok u =>
        rcases x.scorerFor_cases p predictor roles with ⟨hdemand, hno, hunmet⟩ | ⟨hmet, -⟩
        · rw [run_of_unmet hvalid hunmet] at h
          injection h with he
          cases predictor with
          | none => exact he ▸ .missing hvalid hdemand rfl
          | some pr => exact he ▸ .unready hvalid hdemand rfl hno
        · exact .replay hvalid hmet ((run_eq_error_iff_of_met hvalid hmet).mp h)
  · intro h
    cases h with
    | options h => exact run_of_invalid h
    | missing hvalid hdemand h =>
        subst h
        refine run_of_unmet hvalid ?_
        rw [scorerFor_none (by rw [hdemand]; decide), if_pos hdemand]
    | unready hvalid hdemand h hno =>
        subst h
        refine run_of_unmet hvalid ?_
        rw [scorerFor_some (by rw [hdemand]; decide), scorerStage?_eq_none.mpr hno]
        exact if_pos hdemand
    | replay hvalid hmet h => exact (run_eq_error_iff_of_met hvalid hmet).mpr h

theorem FailsWith.isInvalidConfig_iff {e : ExportError} (h : x.FailsWith p predictor roles e) :
    e.isInvalidConfig = true ↔ x.options.validate = .error e := by
  cases h with
  | options h => exact ⟨fun _ => h, fun _ => Options.isInvalidConfig_of_validate h⟩
  | missing hvalid => simp [hvalid, ExportError.isInvalidConfig]
  | unready hvalid => simp [hvalid, ExportError.isInvalidConfig]
  | replay hvalid _ h => simp [hvalid, h.isInvalidConfig]

/-- A demand is missed where the options can be followed and there is no scorer. -/
theorem demand_missed_iff :
    (∃ e, x.run p predictor roles = .error e ∧ e.isConfiguration = true)
      ↔ x.options.validate = .ok () ∧ x.options.loadPredictor = some true
        ∧ x.NoScorer p predictor roles := by
  constructor
  · rintro ⟨e, hrun, he⟩
    cases run_eq_error_iff.mp hrun with
    | options h =>
        rw [ExportError.isConfiguration_of_isInvalidConfig
          (Options.isInvalidConfig_of_validate h)] at he
        cases he
    | missing hvalid hdemand h => exact ⟨hvalid, hdemand, h ▸ noScorer_none⟩
    | unready hvalid hdemand _ hno => exact ⟨hvalid, hdemand, hno⟩
    | replay _ _ h =>
        rw [h.isConfiguration] at he
        cases he
  · rintro ⟨hvalid, hdemand, hno⟩
    cases predictor with
    | none => exact ⟨_, run_eq_error_iff.mpr (.missing hvalid hdemand rfl), rfl⟩
    | some pr => exact ⟨_, run_eq_error_iff.mpr (.unready hvalid hdemand rfl hno), rfl⟩

/-! ## The headline theorem -/

/-- An export fails in the cases of `FailsWith` and in no others. The
options are refused exactly when they do not validate, and a demand is
missed exactly when they do and there is no scorer. No stage of the plan
turns out to be one that cannot be exported, and what an input or output
column is refused for is its empty name or its kind; an undefined column,
or any other reason, can only come from a stage. -/
theorem fails_in_order (x : Exporter) (p : Pipeline) (predictor : Option Predictor)
    (roles : Option Roles) :
    (∀ e, x.run p predictor roles = .error e ↔ x.FailsWith p predictor roles e)
      ∧ (∀ e, x.run p predictor roles = .error e ∧ e.isInvalidConfig = true
          ↔ x.options.validate = .error e)
      ∧ ((∃ e, x.run p predictor roles = .error e ∧ e.isConfiguration = true)
          ↔ x.options.validate = .ok () ∧ x.options.loadPredictor = some true
            ∧ x.NoScorer p predictor roles)
      ∧ (∀ stage, x.run p predictor roles ≠ .error (.notExportable stage))
      ∧ ∀ e, x.run p predictor roles = .error (.build e) →
          e = .argument .emptyColumn ∨ ∃ kind, e = .noElementKind kind := by
  refine ⟨fun e => run_eq_error_iff, ?_, demand_missed_iff, ?_, ?_⟩
  · intro e
    constructor
    · rintro ⟨hrun, he⟩
      exact (run_eq_error_iff.mp hrun).isInvalidConfig_iff.mp he
    · intro h
      exact ⟨run_of_invalid h, Options.isInvalidConfig_of_validate h⟩
  · intro stage hrun
    cases run_eq_error_iff.mp hrun with
    | options h => cases Options.isInvalidConfig_of_validate h
    | replay _ _ h => exact h.ne_notExportable stage rfl
  · intro e hrun
    cases run_eq_error_iff.mp hrun with
    | options h => cases Options.isInvalidConfig_of_validate h
    | replay _ _ h => exact h.cause_of_build

end Exporter

end ModelExport
