import ModelExport.Proofs.Column.Schema
import ModelExport.Proofs.Export.Choice
import ModelExport.Proofs.Scorer.Variables

/-!
# The scores of a predictor are outputs of the model

A mapper whose columns were built by appending has, behind the scorer, the
only visible columns of their names, whatever columns the pipeline has.
Each of them that is not dropped is therefore copied to one output, and if
the mapper leaves the bindings of its columns alone, the copy reads the
variable that the mapper was given for the column
(`Exporter.scores_are_put_out`).
-/

namespace ModelExport

/-! ## Copies of single columns -/

theorem Plan.filter_outputColumns (p : Plan) {inputsToDrop outputsToDrop : NameSet}
    {name : String} (hin : inputsToDrop.contains name = false)
    (hout : outputsToDrop.contains name = false) :
    (p.outputColumns inputsToDrop outputsToDrop).filter (·.name = name)
      = p.terminal.visible.filter (·.name = name) := by
  unfold outputColumns Schema.kept
  rw [List.filter_filter, List.filter_filter]
  refine List.filter_congr fun c _ => ?_
  by_cases hname : c.name = name
  · rw [hname, hin, hout, Bool.not_false, Bool.and_true, Bool.and_true]
  · rw [decide_eq_false hname]
    rfl

theorem Copied.filter_eq_singleton {c : Context} {columns : List Column} {copies : List Copy}
    (h : Copied c columns copies) {column : Column}
    (honly : columns.filter (·.name = column.name) = [column]) :
    ∃ copy, copies.filter (·.column.name = column.name) = [copy] ∧ copy.column = column := by
  rw [← h.each, List.filter_map] at honly
  exact List.map_eq_singleton_iff.mp honly

/-- A column that is the only visible one of its name at the end of the
plan has one copy, which reads the variable that holds the column. -/
theorem Copied.exists_copy {p : Plan} {inputsToDrop outputsToDrop : NameSet} {c : Context}
    {copies : List Copy} (h : Copied c (p.outputColumns inputsToDrop outputsToDrop) copies)
    {column : Column} {held : String} (hheld : c.variableOf? column.name = some held)
    (honly : p.terminal.visible.filter (·.name = column.name) = [column])
    (hin : inputsToDrop.contains column.name = false)
    (hout : outputsToDrop.contains column.name = false) :
    ∃ copy, copies.filter (·.column.name = column.name) = [copy] ∧ copy.column = column
      ∧ copy.source = held := by
  obtain ⟨copy, hcopy, hsame⟩ :=
    h.filter_eq_singleton ((p.filter_outputColumns hin hout).trans honly)
  refine ⟨copy, hcopy, hsame, ?_⟩
  have hmem : copy ∈ copies := by
    refine List.mem_of_mem_filter (p := fun d => d.column.name = column.name) ?_
    rw [hcopy]
    exact List.mem_singleton_self copy
  have hsourced := h.sourced copy hmem
  rw [hsame] at hsourced
  exact hsourced.eq_of_held hheld

/-! ## Scores -/

namespace Exporter

/-- The mapper is handed new variables that hold neutral values, one for
each of its visible columns, and what it makes of them is put out: for
each of the columns that is in neither drop list there is one copy, from
the variable that the mapper was handed for it. -/
structure Scores (x : Exporter) (p : Pipeline) (scorer : Scorer) (program : Program)
    (c : Context) (slots : List Slot) (c' : Context) (part : List Expr) (c'' : Context)
    (copies : List Copy) : Prop where
  turn : scorer.Turn p.walk x.options.inputsToDrop c (slots.map (·.name)) c'
  declares : Scorer.Declares c scorer.mapper.schema.visible slots c'
  emitted : scorer.mapper.emit (slots.map (·.name)) c' = .ok () c''
  appended : c''.body = c'.body ++ part
  body : program.body
    = c.body ++ slots.map Slot.introduction ++ part ++ copies.map Copy.statement
  outputs : program.signature.outputs = c.outputs ++ copies.map (·.output)
  copied : Copied c'' ((planFor p (some scorer.toStage)).outputColumns x.options.inputsToDrop
    x.options.outputsToDrop) copies
  scored : ∀ slot ∈ slots, x.options.inputsToDrop.contains slot.column.name = false →
    x.options.outputsToDrop.contains slot.column.name = false →
      ∃ copy, copies.filter (·.column.name = slot.column.name) = [copy]
        ∧ copy.column = slot.column ∧ copy.source = slot.name

/-- Of the bindings, the mapper leaves those of its own columns alone, and
it registers no outputs. -/
def LeavesScores (x : Exporter) (p : Pipeline) (scorer : Scorer) : Prop :=
  ∀ c names c' c'', scorer.Turn p.walk x.options.inputsToDrop c names c' →
    scorer.mapper.emit names c' = .ok () c'' →
      (∀ column ∈ scorer.mapper.schema.visible,
        c''.variableOf? column.name = c'.variableOf? column.name)
      ∧ c''.outputs = c'.outputs

variable {x : Exporter} {p : Pipeline} {pr : Predictor} {roles : Option Roles}
  {name : String} {input : Schema} {mapper : Mapper}

theorem chosen?_of_resolved {scorer : Scorer}
    (hresolved : x.resolver pr p.terminal roles = some scorer)
    (hload : x.options.loadPredictor ≠ some false) (hready : scorer.mapper.ready = true) :
    x.chosen? p (some pr) roles = some scorer.toStage := by
  rw [chosen?_some hload, scorerStage?, hresolved]
  exact if_pos ((isExportable_toStage scorer).trans hready)

theorem scores_are_put_out {report : Report}
    (hresolved : x.resolver pr p.terminal roles = some (.ofMapper name input mapper))
    (hload : x.options.loadPredictor ≠ some false) (hready : mapper.ready = true)
    (happended : mapper.schema.Appended) (hscripted : mapper.Scripted)
    (hleft : x.LeavesScores p (.ofMapper name input mapper))
    (hrun : x.run p (some pr) roles = .ok report) :
    ∃ c slots c' part c'' copies,
      x.Scores p (.ofMapper name input mapper) report.model.program c slots c' part c'' copies := by
  obtain ⟨final, hreplay, hmodel⟩ := exists_replay hrun
  rw [chosen?_of_resolved hresolved hload hready] at hreplay
  obtain ⟨start, c'', hinputs, hstages, houtputs⟩ := Plan.replay_eq_ok hreplay
  -- Up to the end of the stages: those of the walk, the declarations, the mapper.
  have hreached : (planFor p (some (Scorer.ofMapper name input mapper).toStage)).upTo
      x.options.inputsToDrop (p.walk.stages ++ [(Scorer.ofMapper name input mapper).toStage]) {}
        = .ok () c'' := by
    rw [Plan.upTo_apply, hinputs]
    exact hstages
  obtain ⟨emit, c, hbefore, hexporter, hemit⟩ := Plan.upTo_concat_eq_ok hreached
  obtain rfl := Scorer.emit_of_exporter? hexporter
  obtain ⟨names, c', hdeclared, hemitted⟩ := Scorer.emit_eq_ok hemit
  obtain ⟨slots, hdeclares, rfl⟩ := Scorer.declareOutputs_eq_ok hdeclared
  have hturn : (Scorer.ofMapper name input mapper).Turn p.walk x.options.inputsToDrop c
      (slots.map (·.name)) c' := ⟨hbefore, hdeclared⟩
  obtain ⟨part, hpart⟩ := ((hscripted _).grows hemitted).body
  obtain ⟨hbindings, hkept⟩ := hleft c _ c' c'' hturn hemitted
  obtain ⟨copies, hcopied, -, houts, hbody⟩ := Replay.outputs_eq_ok houtputs
  refine ⟨c, slots, c', part, c'', copies, ?_⟩
  refine
    { turn := hturn
      declares := hdeclares
      emitted := hemitted
      appended := hpart.symm
      body := ?_
      outputs := ?_
      copied := hcopied
      scored := ?_ }
  · rw [hmodel]
    show final.body = _
    rw [hbody, ← hpart, hdeclares.body]
  · rw [hmodel]
    show final.outputs = _
    rw [houts, hkept, hdeclares.outputs]
  · intro slot hslot hin hout
    have hcolumn : slot.column ∈ mapper.schema.visible := by
      have hmem := List.mem_map_of_mem (f := (·.column)) hslot
      rw [hdeclares.each] at hmem
      exact hmem
    have hheld : c''.variableOf? slot.column.name = some slot.name := by
      rw [hbindings slot.column hcolumn]
      exact hdeclares.held happended.settled.nodup_visible slot hslot
    have honly := happended.settled.filter_visible_extend input hcolumn
    exact hcopied.exists_copy hheld honly hin hout

theorem leavesScores_passing {column : Column} (h : column.name ≠ "Score") :
    x.LeavesScores p (.ofMapper name input (.passing column)) := by
  intro c names c' c'' _ hemit
  obtain ⟨held, c₁, hlookup, hset⟩ := bind_eq_ok hemit
  obtain rfl := Build.lookupOrAllocate_eq_ok hlookup
  injection hset with _ hcontext
  rw [← hcontext]
  constructor
  · intro score hscore
    obtain rfl := List.mem_singleton.mp hscore
    exact c'.variableOf?_holding_of_ne (Ne.symm h)
  · exact c'.outputs_holding column.name

/-- The source has a column of the name of the score. -/
theorem scores_are_put_out_shadowing :
    let column : Column := { name := "x", type := .ofKind .float32 }
    let source : Schema := { columns := [column, { column with name := "Score" }] }
    let mapper := Mapper.passing column
    let predictor : Predictor := { name := "Tree", bind? := fun _ _ => some mapper }
    ∃ report, Exporter.run {} ⟨source, []⟩ (some predictor) none = .ok report
      ∧ report.model.program.types.names = ["x", "Score", "Score1", "x1", "Score2"]
      ∧ ∃ c slots c' part c'' copies,
        Exporter.Scores {} ⟨source, []⟩ (.ofMapper ("Tree" ++ "Scorer") source mapper)
          report.model.program c slots c' part c'' copies := by
  intro column source mapper predictor
  have hnames : (Exporter.run {} ⟨source, []⟩ (some predictor) none).toOption.map
      (·.model.program.types.names) = some ["x", "Score", "Score1", "x1", "Score2"] := by
    decide +kernel
  obtain ⟨report, hrun, hnames⟩ := exists_report hnames
  refine ⟨report, hrun, hnames, ?_⟩
  have happended : mapper.schema.Appended := Schema.Appended.withColumn .empty "Score" _
  exact scores_are_put_out rfl (by decide) rfl happended (Mapper.scripted_passing column)
    (leavesScores_passing (by decide)) hrun

end Exporter

end ModelExport
