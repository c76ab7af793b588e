import ModelExport.Export.Run

/-!
# The steps of an export

An export checks the options, chooses the scorer and carries out the
plan. `Exporter.scorerFor_eq_ok` says which scorers and warnings the
choice can give, `Exporter.carryOut_eq_ok` what a report says about the
replay it comes from.
-/

namespace ModelExport

namespace Exporter

variable {x : Exporter} {p : Pipeline} {predictor : Option Predictor} {roles : Option Roles}
variable {report : Report}

/-! ## The choice of the scorer -/

theorem scorerStage?_eq_some {predictor : Predictor} {stage : Stage}
    (h : x.scorerStage? p predictor roles = some stage) :
    ∃ scorer, x.resolver predictor p.terminal roles = some scorer ∧ stage = scorer.toStage
      ∧ scorer.toStage.isExportable = true := by
  unfold scorerStage? at h
  cases hscorer : x.resolver predictor p.terminal roles with
  | none =>
      rw [hscorer] at h
      cases h
  | some scorer =>
      rw [hscorer] at h
      by_cases hready : scorer.toStage.isExportable = true
      · simp only [if_pos hready, Option.some.injEq] at h
        exact ⟨scorer, rfl, h.symm, hready⟩
      · simp only [if_neg hready] at h
        cases h

theorem scorerFor_forbidden (hload : x.options.loadPredictor = some false) :
    x.scorerFor p predictor roles = .ok (none, []) := by
  unfold scorerFor
  rw [hload]

theorem scorerFor_none (hload : x.options.loadPredictor ≠ some false) :
    x.scorerFor p none roles =
      if x.options.loadPredictor = some true then .error .noPredictor else .ok (none, []) := by
  unfold scorerFor
  cases hdemand : x.options.loadPredictor with
  | none => rfl
  | some demand =>
      cases demand with
      | true => rfl
      | false => exact absurd hdemand hload

theorem scorerFor_some (hload : x.options.loadPredictor ≠ some false) (pr : Predictor) :
    x.scorerFor p (some pr) roles = match x.scorerStage? p pr roles with
      | some stage => .ok (some stage, [])
      | none =>
          if x.options.loadPredictor = some true then .error (.predictorNotExportable pr.name)
          else .ok (none, [.predictorIgnored pr.name]) := by
  unfold scorerFor
  cases hdemand : x.options.loadPredictor with
  | none => rfl
  | some demand =>
      cases demand with
      | true => rfl
      | false => exact absurd hdemand hload

/-- Either there is no scorer, perhaps with a warning, or it is the one that was resolved. -/
theorem scorerFor_eq_ok {chosen : Option Stage} {warnings : List Warning}
    (h : x.scorerFor p predictor roles = .ok (chosen, warnings)) :
    (chosen = none ∧ ∀ w ∈ warnings, ∃ pr, predictor = some pr ∧ w = .predictorIgnored pr.name)
      ∨ ∃ pr scorer, predictor = some pr ∧ x.resolver pr p.terminal roles = some scorer
        ∧ chosen = some scorer.toStage ∧ warnings = [] := by
  by_cases hload : x.options.loadPredictor = some false
  · rw [scorerFor_forbidden hload] at h
    cases h
    exact Or.inl ⟨rfl, fun w hw => absurd hw List.not_mem_nil⟩
  cases predictor with
  | none =>
      rw [scorerFor_none hload] at h
      split at h
      · cases h
      · cases h
        exact Or.inl ⟨rfl, fun w hw => absurd hw List.not_mem_nil⟩
  | some pr =>
      rw [scorerFor_some hload] at h
      cases hstage : x.scorerStage? p pr roles with
      | some stage =>
          rw [hstage] at h
          cases h
          obtain ⟨scorer, hscorer, rfl, _⟩ := scorerStage?_eq_some hstage
          exact Or.inr ⟨pr, scorer, rfl, hscorer, rfl, rfl⟩
      | none =>
          rw [hstage] at h
          dsimp only at h
          split at h
          · cases h
          · cases h
            exact Or.inl ⟨rfl, fun w hw => ⟨pr, rfl, List.mem_singleton.mp hw⟩⟩

/-! ## Successful exports -/

theorem carryOut_eq_ok {plan : Plan} {warnings : List Warning}
    (h : x.carryOut plan warnings = .ok report) :
    ∃ c, plan.replay x.options.inputsToDrop x.options.outputsToDrop {} = .ok () c
      ∧ report = { model := c.assemble x.envelope
                   warnings := warnings ++ plan.truncatedAt?.toList.map .truncated
                   exportedStages := plan.stageNames
                   truncatedAt := plan.truncatedAt? } := by
  unfold carryOut at h
  cases hreplay : plan.replay x.options.inputsToDrop x.options.outputsToDrop {} with
  | ok u c =>
      rw [hreplay] at h
      injection h with h
      subst h
      exact ⟨c, rfl, rfl⟩
  | error e c =>
      rw [hreplay] at h
      cases h

theorem run_eq_ok (h : x.run p predictor roles = .ok report) :
    ∃ scorer warnings, x.scorerFor p predictor roles = .ok (scorer, warnings)
      ∧ x.carryOut (planFor p scorer) warnings = .ok report := by
  unfold run at h
  cases hvalid : x.options.validate with
  | error e =>
      rw [hvalid] at h
      cases h
  | ok u =>
      rw [hvalid] at h
      cases hscorer : x.scorerFor p predictor roles with
      | error e =>
          rw [hscorer] at h
          cases h
      | ok chosen =>
          rw [hscorer] at h
          exact ⟨chosen.1, chosen.2, rfl, h⟩

/-- An export that comes to this result succeeds with it. -/
theorem exists_report {α : Type} {f : Report → α} {a : α}
    (h : (x.run p predictor roles).toOption.map f = some a) :
    ∃ report, x.run p predictor roles = .ok report ∧ f report = a := by
  cases hrun : x.run p predictor roles with
  | error e =>
      rw [hrun] at h
      cases h
  | ok report =>
      rw [hrun] at h
      exact ⟨report, rfl, Option.some.inj h⟩

end Exporter

end ModelExport
