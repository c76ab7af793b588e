import ModelExport.Proofs.Export.Failure

/-!
# What the predictor flag decides

The flag only selects between exports (`Exporter.flag_selects`). A
forbidden predictor is as good as none, an ignored one leaves a warning
and nothing else, a demanded one is either exported as it would be without
the demand or missed. It is missed only where the options can be followed,
since they are validated before the flag is looked at
(`Exporter.demand_behind_refused_options`).
-/

namespace ModelExport

/-- The report with one more warning in front of the others. -/
def Report.warnedFirst (w : Warning) (r : Report) : Report :=
  { r with warnings := w :: r.warnings }

namespace Exporter

variable {x : Exporter} {p : Pipeline} {predictor predictor' : Option Predictor}
  {roles : Option Roles} {flag flag' : Option Bool}

/-- The exporter with this flag for predictors. -/
def withFlag (x : Exporter) (flag : Option Bool) : Exporter :=
  { x with options := { x.options with loadPredictor := flag } }

theorem carryOut_cons (plan : Plan) (w : Warning) (warnings : List Warning) :
    x.carryOut plan (w :: warnings) = (x.carryOut plan warnings).map (Report.warnedFirst w) := by
  unfold carryOut
  cases plan.replay x.options.inputsToDrop x.options.outputsToDrop {} <;> rfl

/-! ## The three values of the flag -/

/-- Exports that choose alike are equal. -/
theorem run_withFlag_congr (h : (x.withFlag flag).scorerFor p predictor roles
    = (x.withFlag flag').scorerFor p predictor' roles) :
    (x.withFlag flag).run p predictor roles = (x.withFlag flag').run p predictor' roles := by
  have hvalid : (x.withFlag flag).options.validate = (x.withFlag flag').options.validate := rfl
  unfold run
  rw [hvalid, h]
  rfl

/-- Exports that choose alike but for a warning differ by the warning. -/
theorem run_withFlag_warned {chosen : Option Stage} {w : Warning} {warnings : List Warning}
    (h : (x.withFlag flag).scorerFor p predictor roles = .ok (chosen, w :: warnings))
    (h' : (x.withFlag flag').scorerFor p predictor' roles = .ok (chosen, warnings)) :
    (x.withFlag flag).run p predictor roles
      = ((x.withFlag flag').run p predictor' roles).map (Report.warnedFirst w) := by
  have hvalid : (x.withFlag flag).options.validate = (x.withFlag flag').options.validate := rfl
  unfold run
  rw [hvalid, h, h']
  cases (x.withFlag flag').options.validate with
  | error e => rfl
  | ok u => exact carryOut_cons _ w warnings

/-- A demand that is met changes nothing. -/
theorem scorerFor_of_met (h : ¬ x.NoScorer p predictor roles) :
    (x.withFlag (some true)).scorerFor p predictor roles
      = (x.withFlag none).scorerFor p predictor roles := by
  cases predictor with
  | none => exact absurd noScorer_none h
  | some pr =>
      cases hstage : x.scorerStage? p pr roles with
      | none => exact absurd (scorerStage?_eq_none.mp hstage) h
      | some stage =>
          have hdemanded : (x.withFlag (some true)).scorerStage? p pr roles = some stage := hstage
          have hunset : (x.withFlag none).scorerStage? p pr roles = some stage := hstage
          rw [scorerFor_some (show some true ≠ some false by decide), hdemanded,
            scorerFor_some (show none ≠ some false by decide), hunset]

/-- The flag selects whether the predictor is taken. Forbidden, it is as
good as none; ignored, it leaves one warning in front of the others;
demanded of options that can be followed, it is missed exactly when there
is no scorer, and otherwise exported as without the demand. Options that
cannot be followed are refused whatever the flag. -/
theorem flag_selects (x : Exporter) (p : Pipeline) (predictor : Option Predictor)
    (roles : Option Roles) :
    (x.withFlag (some false)).run p predictor roles = (x.withFlag none).run p none roles
      ∧ (∀ pr, predictor = some pr → x.NoScorer p predictor roles →
          (x.withFlag none).run p predictor roles
            = ((x.withFlag none).run p none roles).map
                (Report.warnedFirst (.predictorIgnored pr.name)))
      ∧ (x.options.validate = .ok () →
          ((∃ e, (x.withFlag (some true)).run p predictor roles = .error e
              ∧ e.isConfiguration = true) ↔ x.NoScorer p predictor roles))
      ∧ (¬ x.NoScorer p predictor roles →
          (x.withFlag (some true)).run p predictor roles
            = (x.withFlag none).run p predictor roles)
      ∧ ∀ e, x.options.validate = .error e → e.isInvalidConfig = true
          ∧ ∀ flag, (x.withFlag flag).run p predictor roles = .error e := by
  refine ⟨run_withFlag_congr ?_, ?_, ?_, fun h => run_withFlag_congr (scorerFor_of_met h), ?_⟩
  · rw [scorerFor_forbidden rfl]
    rfl
  · rintro pr rfl hno
    have hignored : (x.withFlag none).scorerFor p (some pr) roles
        = .ok (none, [.predictorIgnored pr.name]) := by
      have hstage : (x.withFlag none).scorerStage? p pr roles = none :=
        scorerStage?_eq_none.mpr hno
      rw [scorerFor_some (show none ≠ some false by decide), hstage]
      rfl
    exact run_withFlag_warned hignored rfl
  · intro hvalid
    rw [demand_missed_iff]
    exact ⟨fun h => h.2.2, fun hno => ⟨hvalid, rfl, hno⟩⟩
  · intro e hvalid
    exact ⟨Options.isInvalidConfig_of_validate hvalid, fun flag => run_of_invalid hvalid⟩

/-- Without a predictor, and with a name that is refused, a demand is not
what the export fails for. -/
theorem demand_behind_refused_options :
    let x : Exporter := { options := { name := some "" } }
    let p : Pipeline := ⟨{}, []⟩
    (x.withFlag (some true)).run p none none = .error .emptyModelName
      ∧ ¬ ((∃ e, (x.withFlag (some true)).run p none none = .error e ∧ e.isConfiguration = true)
          ↔ x.NoScorer p none none) := by
  intro x p
  have hrun : (x.withFlag (some true)).run p none none = .error .emptyModelName := rfl
  refine ⟨hrun, fun hiff => ?_⟩
  obtain ⟨e, he, hconfiguration⟩ := hiff.mpr noScorer_none
  obtain rfl := Except.error.inj (hrun.symm.trans he)
  cases hconfiguration

end Exporter

end ModelExport
