import ModelExport.Proofs.Context.Assignment
import ModelExport.Proofs.Export.Choice
import ModelExport.Proofs.Pipeline.Contribution
import ModelExport.Proofs.Scorer.Variables

/-!
# Exported programs overwrite declared names only

The statements of a program come from four places: the operations of the
stages, the statements that stages and mapper add as they stand, the
declarations of the scorer, and the copies to the outputs. Only the second
can go wrong. Where these overwrite parameters of the program, names
introduced above and, in the case of the mapper, names that it was handed
(`Exporter.AddsDeclared`), the program overwrites no other names
(`Exporter.assignments_are_declared`).

Which names are parameters is known at the end only. So the induction along
the stages takes them as given, and the outputs of each context on the way
are among them because contexts grow.
-/

namespace ModelExport

/-! ## Stages and mappers -/

namespace Build

variable {known : String → Prop} {c : Context}

theorem addsDeclared_elementKind (kind : RawKind) : (elementKind kind).AddsDeclared known c := by
  intro k c' h
  obtain ⟨rfl, -⟩ := elementKind_eq_ok h
  exact ⟨[], rfl, trivial⟩

end Build

open Build

theorem Stage.addsDeclared_copying {input : Schema} {column : Column} {copy : String}
    {emit : Build Unit} (h : (Stage.copying input column copy).exporter? = some emit)
    (known : String → Prop) (c : Context) : emit.AddsDeclared known c := by
  obtain rfl := Option.some.inj h
  exact (addsDeclared_lookupOrAllocate _).bind fun _ _ _ =>
    (addsDeclared_addIntermediate _ _).bind fun _ _ _ => addsDeclared_addExpr (.bindOne _ _)

theorem Mapper.addsDeclared_passing (column : Column) (names : List String)
    (known : String → Prop) (c : Context) :
    ((Mapper.passing column).emit names).AddsDeclared (fun name => known name ∨ name ∈ names) c := by
  refine (addsDeclared_lookupOrAllocate _).bind fun held _ _ => addsDeclared_addExprs ?_
  refine .of_assigned fun name value hassign => Or.inl (Or.inr ?_)
  obtain ⟨handed, hmem, heq⟩ := List.mem_map.mp hassign
  injection heq with hname
  exact hname ▸ hmem

namespace Scorer

variable {known : String → Prop} {c c' : Context}

theorem addsDeclared_declareOutput (column : Column) :
    (declareOutput column).AddsDeclared known c :=
  (addsDeclared_elementKind _).bind fun _ _ _ => (addsDeclared_addIntermediate _ _).bind
    fun _ _ _ => (addsDeclared_addExpr (.bindOne _ _)).bind fun _ _ _ => addsDeclared_pure _

theorem addsDeclared_declareOutputs (columns : List Column) :
    (declareOutputs columns).AddsDeclared known c := by
  induction columns generalizing c with
  | nil => exact addsDeclared_pure _
  | cons column columns ih =>
      exact (addsDeclared_declareOutput column).bind fun _ _ _ => ih.bind fun _ _ _ =>
        addsDeclared_pure _

theorem Declares.introduced {columns : List Column} {slots : List Slot}
    (h : Declares c columns slots c') : ∀ name ∈ slots.map (·.name), Introduced c'.body name := by
  intro name hname
  obtain ⟨slot, hslot, rfl⟩ := List.mem_map.mp hname
  refine ⟨slot.introduction, ?_, List.mem_singleton_self _⟩
  rw [h.body]
  exact List.mem_append_right _ (List.mem_map_of_mem hslot)

/-- What the mapper is handed is introduced above what it adds. -/
theorem addsDeclared_emit {s : Scorer}
    (h : ∀ names c', declareOutputs s.mapper.schema.visible c = .ok names c' →
      (s.mapper.emit names).AddsDeclared (fun name => known name ∨ name ∈ names) c') :
    s.emit.AddsDeclared known c := by
  refine (addsDeclared_declareOutputs _).bind fun names c' hdeclared => ?_
  obtain ⟨slots, hdeclares, rfl⟩ := declareOutputs_eq_ok hdeclared
  exact (h _ c' hdeclared).of_known fun name hname => hname.imp_right (hdeclares.introduced name)

end Scorer

/-! ## Replays -/

namespace Plan

variable {p : Plan} {inputsToDrop outputsToDrop : NameSet} {known : String → Prop}

theorem overwritesDeclared_upTo
    (hadd : ∀ before stage emit c, p.Turn inputsToDrop before stage emit c →
      emit.AddsDeclared known c)
    {before : List Stage} (hbefore : before <+: p.stages) {c : Context}
    (h : p.upTo inputsToDrop before {} = .ok () c)
    (hknown : ∀ output ∈ c.outputs, known output.name) : OverwritesDeclared known [] c.body := by
  refine holds_of_turns (fun c => (∀ output ∈ c.outputs, known output.name) →
    OverwritesDeclared known [] c.body) ?_ ?_ hbefore h hknown
  · intro c hinputs _
    obtain ⟨added, -, -, hbody, -, -⟩ := Replay.inputs_eq_ok hinputs
    rw [hbody]
    exact .nil
  · intro before stage emit c c' hturn hemit hearlier hknown
    have hstage := hadd before stage emit c hturn
    have houtputs := (hstage.reaches hemit).grows.outputs
    have hbody := hearlier fun output houtput => hknown output (houtputs.subset houtput)
    exact hstage.overwritesDeclared hemit hknown hbody

theorem overwritesDeclared_replay
    (hadd : ∀ before stage emit c, p.Turn inputsToDrop before stage emit c →
      emit.AddsDeclared known c)
    {c : Context} (h : p.replay inputsToDrop outputsToDrop {} = .ok () c)
    (hknown : ∀ output ∈ c.outputs, known output.name) : OverwritesDeclared known [] c.body := by
  obtain ⟨start, finish, hinputs, hstages, houtputs⟩ := replay_eq_ok h
  obtain ⟨copies, -, -, houts, hbody⟩ := Replay.outputs_eq_ok houtputs
  rw [houts] at hknown
  have hreached : p.upTo inputsToDrop p.stages {} = .ok () finish := by
    rw [upTo_apply, hinputs]
    exact hstages
  have hfinish := overwritesDeclared_upTo hadd (List.prefix_refl _) hreached
    fun output houtput => hknown output (List.mem_append_left _ houtput)
  have hcopies : OverwritesDeclared known ([] ++ finish.body) (copies.map Copy.statement) := by
    refine .of_assigned fun name value hassign => Or.inl ?_
    obtain ⟨copy, hcopy, heq⟩ := List.mem_map.mp hassign
    injection heq with hname
    rw [← hname]
    exact hknown copy.output (List.mem_append_right _ (List.mem_map_of_mem hcopy))
  rw [hbody]
  exact hfinish.append hcopies

end Plan

/-! ## Exports -/

/-- The name of an input or of an output. -/
def Program.HasParameter (p : Program) (name : String) : Prop :=
  (∃ input ∈ p.signature.inputs, input.name = name)
    ∨ ∃ output ∈ p.signature.outputs, output.name = name

namespace Exporter

/-- In this export, the statements that the stages add as they stand
overwrite only names that are known or introduced above, and so do those of
the mapper, which may also overwrite the names that it is handed. -/
structure AddsDeclared (x : Exporter) (p : Pipeline) (predictor : Option Predictor)
    (roles : Option Roles) (known : String → Prop) : Prop where
  stages : ∀ before stage emit c, p.walk.Turn x.options.inputsToDrop before stage emit c →
    emit.AddsDeclared known c
  mapper : ∀ pr ∈ predictor, ∀ scorer ∈ x.resolver pr p.terminal roles,
    x.chosen? p predictor roles = some scorer.toStage → ∀ c names c',
      scorer.Turn p.walk x.options.inputsToDrop c names c' →
        (scorer.mapper.emit names).AddsDeclared (fun name => known name ∨ name ∈ names) c'

variable {x : Exporter} {p : Pipeline} {predictor : Option Predictor} {roles : Option Roles}

theorem AddsDeclared.of_turn {known : String → Prop} (h : x.AddsDeclared p predictor roles known)
    {before : List Stage} {stage : Stage} {emit : Build Unit} {c : Context}
    (hturn : (planFor p (x.chosen? p predictor roles)).Turn x.options.inputsToDrop before stage
      emit c) : emit.AddsDeclared known c := by
  rcases turn_cases hturn with hearlier | ⟨pr, hpr, scorer, hscorer, hchosen, rfl, hreached⟩
  · exact h.stages before stage emit c hearlier
  · exact Scorer.addsDeclared_emit fun names c' hdeclared =>
      h.mapper pr hpr scorer hscorer hchosen c names c' ⟨hreached, hdeclared⟩

/-- Each statement of the program that overwrites a name overwrites an
input, an output, or a name that a statement above it introduces. -/
theorem assignments_are_declared (x : Exporter) (p : Pipeline) (predictor : Option Predictor)
    (roles : Option Roles) (report : Report) (hrun : x.run p predictor roles = .ok report)
    (hadd : x.AddsDeclared p predictor roles report.model.program.HasParameter) :
    ∀ above name value below, report.model.program.body = above ++ .assign name value :: below →
      report.model.program.HasParameter name ∨ Introduced above name := by
  obtain ⟨c, hreplay, hmodel⟩ := exists_replay hrun
  rw [hmodel] at hadd ⊢
  exact Plan.overwritesDeclared_replay (fun _ _ _ _ hturn => hadd.of_turn hturn) hreplay
    fun output houtput => Or.inr ⟨output, houtput, rfl⟩

/-- The mapper overwrites the variable that the scorer introduced for it. -/
theorem assignments_are_declared_copying :
    let column : Column := { name := "x", type := .ofKind .float32 }
    let source : Schema := { columns := [column] }
    let p : Pipeline := ⟨source, [.copying source column "y"]⟩
    let predictor : Predictor := { name := "Tree", bind? := fun _ _ => some (.passing column) }
    ∃ report, Exporter.run {} p (some predictor) none = .ok report
      ∧ report.model.program.body.map Expr.boundNames
        = [["y"], ["Score"], ["Score"], ["x1"], ["y1"], ["Score1"]]
      ∧ ∀ above name value below,
        report.model.program.body = above ++ .assign name value :: below →
          report.model.program.HasParameter name ∨ Introduced above name := by
  intro column source p predictor
  have hnames : (Exporter.run {} p (some predictor) none).toOption.map
      (·.model.program.body.map Expr.boundNames)
        = some [["y"], ["Score"], ["Score"], ["x1"], ["y1"], ["Score1"]] := by
    decide +kernel
  obtain ⟨report, hrun, hnames⟩ := exists_report hnames
  refine ⟨report, hrun, hnames, ?_⟩
  refine assignments_are_declared {} p (some predictor) none report hrun ?_
  constructor
  · intro before stage emit c hturn
    obtain rfl := List.mem_singleton.mp (p.stages_walk_subset hturn.mem)
    exact Stage.addsDeclared_copying hturn.exporter _ c
  · intro pr hpr scorer hscorer _ _ names c' _
    obtain rfl := Option.mem_some_iff.mp hpr
    obtain rfl := Option.mem_some_iff.mp hscorer
    exact Mapper.addsDeclared_passing column names _ c'

-- What a stage adds as it stands is not looked at: no one introduces this name.
example :
    let raw : Build Unit := Build.addExpr (.assign "total" (.literal (.int64 1)))
    let stage : Stage := { name := "Raw", schema := {}, capability := some { emit := raw } }
    (Exporter.run {} ⟨{}, [stage]⟩ none none).toOption.map
      (·.model.program.body.map Expr.boundNames) = some [["total"]] := by
  decide +kernel

end Exporter

end ModelExport
