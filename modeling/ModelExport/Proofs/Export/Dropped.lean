import ModelExport.Proofs.Export.Choice
import ModelExport.Proofs.Pipeline.Contribution
import ModelExport.Proofs.Pipeline.Passes

/-!
# Outputs that are left out

The list of outputs to leave out is not looked at before the stages have
contributed. Two exports that differ in it therefore come to the same context
(`Plan.EndsIn`), with the same inputs, functions, statements and outputs of the
stages, and only the copies behind it differ. Their outputs may have other names,
since a column that is left out takes none. What the columns are copied from was
settled before: a column in both exports is copied from the variable that holds
it, in both of them (`Copy.Matches`).
-/

namespace ModelExport

/-! ## The same columns in two passes -/

/-- Copies of one column, of the same type, and from the same variable if one
holds the column in the context. -/
structure Copy.Matches (c : Context) (a b : Copy) : Prop where
  column : a.column = b.column
  type : a.output.type = b.output.type
  source : ∀ held, c.variableOf? a.column.name = some held → a.source = held ∧ b.source = held

section Copied

variable {c : Context} {columns columns' : List Column} {copies copies' : List Copy}

theorem Copied.exists_mem (h : Copied c columns copies) {column : Column}
    (hcolumn : column ∈ columns) : ∃ copy ∈ copies, copy.column = column := by
  rw [← h.each] at hcolumn
  exact List.mem_map.mp hcolumn

theorem Copied.matches (h : Copied c columns copies) (h' : Copied c columns' copies') {a b : Copy}
    (ha : a ∈ copies) (hb : b ∈ copies') (hcolumn : a.column = b.column) : a.Matches c b where
  column := hcolumn
  type := by
    have htype : a.column.type.descriptor? = some a.output.type := h.typed a ha
    rw [hcolumn, show b.column.type.descriptor? = some b.output.type from h'.typed b hb] at htype
    exact (Option.some.inj htype).symm
  source held hheld :=
    ⟨(h.sourced a ha).eq_of_held hheld, (h'.sourced b hb).eq_of_held (hcolumn ▸ hheld)⟩

/-- Copies of the same columns match one by one. -/
theorem Copied.forall₂_matches (h : Copied c columns copies) (h' : Copied c columns' copies')
    {chosen chosen' : List Copy} (hsub : chosen ⊆ copies) (hsub' : chosen' ⊆ copies')
    (hsame : chosen.map (·.column) = chosen'.map (·.column)) :
    List.Forall₂ (Copy.Matches c) chosen chosen' := by
  have hcolumns : List.Forall₂ (fun a b : Copy => a.column = b.column) chosen chosen' := by
    rwa [← List.forall₂_eq_eq_eq, List.forall₂_map_left_iff, List.forall₂_map_right_iff] at hsame
  obtain ⟨hlength, hzip⟩ := List.forall₂_iff_zip.mp hcolumns
  refine List.forall₂_iff_zip.mpr ⟨hlength, fun hmem => ?_⟩
  obtain ⟨ha, hb⟩ := List.of_mem_zip hmem
  exact h.matches h' (hsub ha) (hsub' hb) (hzip hmem)

end Copied

/-! ## Plans -/

namespace Plan

/-- Behind the inputs and the stages, which leave the one context, the program
has a copy to an output for each column that the plan ends with, and no more. -/
structure EndsIn (p : Plan) (inputsToDrop outputsToDrop : NameSet) (finish : Context)
    (copies : List Copy) (program : Program) : Prop where
  reached : p.upTo inputsToDrop p.stages {} = .ok () finish
  copied : Copied finish (p.outputColumns inputsToDrop outputsToDrop) copies
  inputs : program.signature.inputs = finish.inputs
  functions : program.functions = finish.functions
  outputs : program.signature.outputs = finish.outputs ++ copies.map (·.output)
  body : program.body = finish.body ++ copies.map Copy.statement

variable {p : Plan} {inputsToDrop outputsToDrop outputsToDrop' : NameSet}

theorem endsIn_of_replay {c : Context}
    (h : p.replay inputsToDrop outputsToDrop {} = .ok () c) (name : String) :
    ∃ finish copies, p.EndsIn inputsToDrop outputsToDrop finish copies (c.program name) := by
  obtain ⟨start, finish, hstart, hfinish, houtputs⟩ := replay_eq_ok h
  obtain ⟨copies, hcopied, hins, houts, hbody⟩ := Replay.outputs_eq_ok houtputs
  refine ⟨finish, copies, ?_, hcopied, hins, Replay.functions_of_outputs houtputs, houts, hbody⟩
  rw [upTo_apply, hstart]
  exact hfinish

/-- The columns of two lists to leave out, whichever is followed first. -/
theorem filter_outputColumns_comm (p : Plan) (inputsToDrop dropped dropped' : NameSet) :
    (p.outputColumns inputsToDrop dropped).filter (fun c => !dropped'.contains c.name)
      = (p.outputColumns inputsToDrop dropped').filter (fun c => !dropped.contains c.name) := by
  simp only [outputColumns, Schema.kept, List.filter_filter]
  refine List.filter_congr fun c _ => ?_
  cases dropped.contains c.name <;> cases inputsToDrop.contains c.name
    <;> cases dropped'.contains c.name <;> rfl

section EndsIn

variable {finish : Context} {copies copies' : List Copy} {program program' : Program}

theorem EndsIn.finish_eq {finish' : Context}
    (h : p.EndsIn inputsToDrop outputsToDrop finish copies program)
    (h' : p.EndsIn inputsToDrop outputsToDrop' finish' copies' program') : finish = finish' := by
  have hsame := h.reached.symm.trans h'.reached
  injection hsame

theorem EndsIn.forall₂_matches (h : p.EndsIn inputsToDrop outputsToDrop finish copies program)
    (h' : p.EndsIn inputsToDrop outputsToDrop' finish copies' program') :
    List.Forall₂ (Copy.Matches finish)
      (copies.filter fun a => !outputsToDrop'.contains a.column.name)
      (copies'.filter fun b => !outputsToDrop.contains b.column.name) := by
  refine h.copied.forall₂_matches h'.copied (List.filter_subset_self _)
    (List.filter_subset_self _) ?_
  have hfilter : ∀ (dropped : NameSet) (l : List Copy),
      (l.filter fun a => !dropped.contains a.column.name).map (·.column)
        = (l.map (·.column)).filter fun c => !dropped.contains c.name := by
    intro dropped l
    rw [List.filter_map]
    rfl
  rw [hfilter, hfilter, h.copied.each, h'.copied.each, p.filter_outputColumns_comm]

end EndsIn

end Plan

/-! ## Exports -/

namespace Exporter

/-- The exporter with this list of outputs to leave out. -/
def withoutOutputs (x : Exporter) (outputs : NameSet) : Exporter :=
  { x with options := { x.options with outputsToDrop := outputs } }

variable {x : Exporter} {p : Pipeline} {predictor : Option Predictor} {roles : Option Roles}

theorem endsIn_of_run {report : Report} (h : x.run p predictor roles = .ok report) :
    let plan := planFor p (x.chosen? p predictor roles)
    ∃ warnings finish copies,
      x.scorerFor p predictor roles = .ok (x.chosen? p predictor roles, warnings)
      ∧ plan.EndsIn x.options.inputsToDrop x.options.outputsToDrop finish copies
          report.model.program
      ∧ report.warnings = warnings ++ plan.truncatedAt?.toList.map .truncated
      ∧ report.exportedStages = plan.stageNames
      ∧ report.truncatedAt = plan.truncatedAt? := by
  intro plan
  obtain ⟨chosen, warnings, hscorer, hrun⟩ := run_eq_ok h
  obtain rfl := eq_chosen? hscorer
  obtain ⟨c, hreplay, rfl⟩ := carryOut_eq_ok hrun
  obtain ⟨finish, copies, hends⟩ := Plan.endsIn_of_replay hreplay x.envelope.name
  exact ⟨warnings, finish, copies, hscorer, hends, rfl, rfl, rfl⟩

/-- Two exports that differ in the outputs to leave out come to the same context
behind their stages, and report the same besides the model. What the one model
has in front of its copies the other has too. The columns that neither leaves out
are copied in the same order to outputs of the same types, and those that a
variable holds behind the stages are copied from it in both. -/
theorem dropped_outputs_leave_stages (outputs : NameSet) {report report' : Report}
    (h : x.run p predictor roles = .ok report)
    (h' : (x.withoutOutputs outputs).run p predictor roles = .ok report') :
    let plan := planFor p (x.chosen? p predictor roles)
    ∃ finish copies copies',
      plan.EndsIn x.options.inputsToDrop x.options.outputsToDrop finish copies
          report.model.program
      ∧ plan.EndsIn x.options.inputsToDrop outputs finish copies' report'.model.program
      ∧ List.Forall₂ (Copy.Matches finish)
          (copies.filter fun a => !outputs.contains a.column.name)
          (copies'.filter fun b => !x.options.outputsToDrop.contains b.column.name)
      ∧ (∀ column ∈ plan.outputColumns x.options.inputsToDrop x.options.outputsToDrop,
          column ∈ plan.outputColumns x.options.inputsToDrop outputs →
            ∀ source, finish.variableOf? column.name = some source →
              ∃ copy ∈ copies, ∃ copy' ∈ copies', copy.column = column ∧ copy'.column = column
                ∧ copy.output.type = copy'.output.type
                ∧ copy.source = source ∧ copy'.source = source)
      ∧ report.warnings = report'.warnings
      ∧ report.exportedStages = report'.exportedStages
      ∧ report.truncatedAt = report'.truncatedAt := by
  intro plan
  obtain ⟨warnings, finish, copies, hscorer, hends, hwarnings, hstages, htruncated⟩ :=
    endsIn_of_run h
  obtain ⟨warnings', finish', copies', hscorer', hends', hwarnings', hstages', htruncated'⟩ :=
    endsIn_of_run h'
  obtain rfl : finish = finish' := hends.finish_eq hends'
  have hsame : warnings = warnings' := by
    have hchosen := hscorer.symm.trans hscorer'
    injection hchosen with hpair
    exact congrArg Prod.snd hpair
  refine ⟨finish, copies, copies', hends, hends', hends.forall₂_matches hends', ?_,
    ?_, hstages.trans hstages'.symm, htruncated.trans htruncated'.symm⟩
  · intro column hcolumn hcolumn' source hheld
    obtain ⟨copy, hmem, rfl⟩ := hends.copied.exists_mem hcolumn
    obtain ⟨copy', hmem', hname⟩ := hends'.copied.exists_mem hcolumn'
    have hmatches := hends.copied.matches hends'.copied hmem hmem' hname.symm
    exact ⟨copy, hmem, copy', hmem', rfl, hname, hmatches.type, hmatches.source source hheld⟩
  · rw [hwarnings, hwarnings', hsame]
    rfl

/-- A column beside one that is an alias of it. When the column is left out, the
output of the alias gets the name that the column's output has otherwise. -/
theorem dropped_outputs_leave_stages_alias :
    let column : Column := { name := "x", type := .ofKind .float32 }
    let source : Schema := { columns := [column] }
    let aliasing : Stage :=
      { name := "Alias"
        schema := source.withColumn "x1" column.type
        capability := some { emit := Build.bindColumn "x1" "x" } }
    let p : Pipeline := ⟨source, [aliasing]⟩
    let x : Exporter := {}
    let dropped : NameSet := .ofCommas "x"
    ∃ report report', x.run p none none = .ok report
      ∧ (x.withoutOutputs dropped).run p none none = .ok report'
      ∧ report.model.program.outputNames = ["x1", "x11"]
      ∧ report'.model.program.outputNames = ["x1"]
      ∧ ∃ finish copies copies',
        (planFor p none).EndsIn {} x.options.outputsToDrop finish copies report.model.program
        ∧ (planFor p none).EndsIn {} dropped finish copies' report'.model.program
        ∧ List.Forall₂ (Copy.Matches finish)
            (copies.filter fun a => !dropped.contains a.column.name)
            (copies'.filter fun b => !x.options.outputsToDrop.contains b.column.name) := by
  intro column source aliasing p x dropped
  have hnames : (x.run p none none).toOption.map (·.model.program.outputNames)
      = some ["x1", "x11"] := by decide +kernel
  have hnames' : ((x.withoutOutputs dropped).run p none none).toOption.map
      (·.model.program.outputNames) = some ["x1"] := by decide +kernel
  obtain ⟨report, hrun, hnames⟩ := exists_report hnames
  obtain ⟨report', hrun', hnames'⟩ := exists_report hnames'
  obtain ⟨finish, copies, copies', hends, hends', hmatch, -⟩ :=
    dropped_outputs_leave_stages dropped hrun hrun'
  exact ⟨report, report', hrun, hrun', hnames, hnames', finish, copies, copies', hends, hends',
    hmatch⟩

end Exporter

end ModelExport
