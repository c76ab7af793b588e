import ModelExport.Proofs.Column.Schema
import ModelExport.Proofs.Export.Choice
import ModelExport.Proofs.Pipeline.Contract
import ModelExport.Proofs.Scorer.Variables

/-!
# No output dangles

An export whose stages keep the contract finds a variable for each column
that it puts out, and the variable is one that an input or a stage bound
(`Exporter.no_output_dangles`). A scorer that is made from a mapper keeps
the contract whatever the mapper does: a column that its schema shows and
the input does not is one of the mapper's visible columns, and those have
variables before the mapper is asked for anything.
-/

namespace ModelExport

/-! ## Stages that keep the contract -/

theorem Stage.provides_copying {input : Schema} {column : Column} {copy : String}
    {emit : Build Unit} (h : (Stage.copying input column copy).exporter? = some emit)
    (c : Context) : emit.Provides input (Stage.copying input column copy).schema c := by
  obtain rfl := Option.some.inj h
  intro c' hemit shown hshown hnew
  obtain ⟨held, c₁, -, hrest⟩ := bind_eq_ok hemit
  obtain ⟨name, c₂, hcopy, hset⟩ := bind_eq_ok hrest
  obtain ⟨d, rfl, rfl⟩ := Build.addIntermediate_eq_ok hcopy
  injection hset with _ hcontext
  have hpush := Schema.visible_push input { name := copy, type := column.type }
  rw [show (Stage.copying input column copy).schema = input.push _ from rfl, hpush] at hshown
  rcases List.mem_append.mp hshown with hearlier | hlast
  · exact absurd (List.mem_map_of_mem (List.mem_of_mem_filter hearlier)) hnew
  · obtain rfl := List.mem_singleton.mp hlast
    rw [← hcontext]
    refine Context.containsColumn_iff.mpr ⟨c₁.fresh copy, ?_⟩
    show (c₁.withIntermediate copy d).variableOf? copy = _
    rw [Context.variableOf?_withIntermediate, if_pos rfl]

namespace Scorer

theorem containsColumn_declareOutputs {columns : List Column} {names : List String}
    {c c' : Context} (h : declareOutputs columns c = .ok names c') :
    ∀ column ∈ columns, c'.containsColumn column.name = true := by
  induction columns generalizing c names with
  | nil => exact fun _ hcolumn => absurd hcolumn List.not_mem_nil
  | cons column columns ih =>
      obtain ⟨name, c₁, hfirst, h⟩ := bind_eq_ok h
      obtain ⟨rest, c₂, hrest, h⟩ := bind_eq_ok h
      injection h with _ hcontext
      subst hcontext
      obtain ⟨type, kind, -, -, rfl⟩ := declareOutput_eq_ok hfirst
      have hbound : (declaring c column type kind).containsColumn column.name = true :=
        Context.containsColumn_iff.mpr ⟨_, by rw [variableOf?_declaring, if_pos rfl]⟩
      have hreaches := (byCalls_declareOutputs columns).reaches hrest
      exact List.forall_mem_cons.mpr ⟨hreaches.containsColumn hbound, ih hrest⟩

theorem provides_ofMapper (name : String) (input : Schema) {mapper : Mapper}
    (hscripted : mapper.Scripted) (c : Context) :
    (ofMapper name input mapper).emit.Provides input (ofMapper name input mapper).schema c := by
  intro c' hemit column hcolumn hnew
  obtain ⟨names, c₁, hdeclared, hmapper⟩ := emit_eq_ok hemit
  rcases Schema.mem_visible_of_extend hcolumn with hseen | hscore
  · exact absurd (List.mem_map_of_mem hseen) hnew
  · have hbound := containsColumn_declareOutputs hdeclared column hscore
    exact ((hscripted names).reaches hmapper).containsColumn hbound

end Scorer

/-! ## The ends of plans -/

namespace Plan

theorem terminal_walk (p : Pipeline) : p.walk.terminal = p.walk.seenBehind p.walk.stages := by
  rcases exportable_or_last_unexportable p.stages with hall | ⟨up, halt, down, hp, hhalt, hdown⟩
  · rw [Pipeline.walk_of_exportable hall]
    rfl
  · rw [Pipeline.walk_of_halt hp hhalt hdown]
    show Pipeline.terminal ⟨p.source, p.stages⟩ = _
    rw [hp, Pipeline.terminal_of_behind]
    rfl

theorem terminal_planFor (p : Pipeline) (scorer : Option Stage) :
    (Exporter.planFor p scorer).terminal
      = (Exporter.planFor p scorer).seenBehind (Exporter.planFor p scorer).stages := by
  cases scorer with
  | none => exact terminal_walk p
  | some stage => exact (Pipeline.terminal_push ⟨p.walk.source, p.walk.stages⟩ stage).symm

theorem keepsContract_of_empty {p : Plan} (h : p.stages = []) (inputsToDrop : NameSet) :
    p.KeepsContract inputsToDrop := by
  intro before stage emit c hturn
  have hmem := hturn.mem
  rw [h] at hmem
  exact absurd hmem List.not_mem_nil

/-- The last stage has only its own part of the contract to keep. -/
theorem KeepsContract.pushTerminal {p : Plan} {inputsToDrop : NameSet}
    (h : p.KeepsContract inputsToDrop) {last : Stage}
    (hlast : ∀ emit c, last.exporter? = some emit →
      emit.Provides (p.seenBehind p.stages) last.schema c) :
    (p.pushTerminal last).KeepsContract inputsToDrop := by
  intro before stage emit c hturn
  rcases hturn.of_pushTerminal with hearlier | ⟨rfl, rfl, -⟩
  · exact h before stage emit c hearlier
  · exact hlast emit c hturn.exporter

end Plan

/-! ## Exports -/

namespace Exporter

variable {x : Exporter} {p : Pipeline} {predictor : Option Predictor} {roles : Option Roles}

/-- Where the stages keep the contract, the pass over the outputs takes no
new variables, and what an output copies was bound by an input or by a
stage. The scorer of a mapper keeps the contract behind the columns that it
was made for. -/
theorem no_output_dangles :
    (∀ (x : Exporter) (p : Pipeline) (predictor : Option Predictor) (roles : Option Roles),
      p.Scripted →
      (∀ pr ∈ predictor, ∀ scorer ∈ x.resolver pr p.terminal roles, scorer.mapper.Scripted) →
      let plan := planFor p (x.chosen? p predictor roles)
      plan.KeepsContract x.options.inputsToDrop →
        (∀ finish, plan.upTo x.options.inputsToDrop plan.stages {} = .ok () finish →
          plan.OutputsHeld x.options.inputsToDrop x.options.outputsToDrop finish)
        ∧ ∀ report, x.run p predictor roles = .ok report →
          ∀ output ∈ report.model.program.signature.outputs, ∃ column name,
            plan.Binds x.options.inputsToDrop column name
              ∧ .assign output.name (.variable name) ∈ report.model.program.body)
    ∧ ∀ name input mapper, mapper.Scripted → ∀ c,
        (Scorer.ofMapper name input mapper).emit.Provides input
          (Scorer.ofMapper name input mapper).schema c := by
  refine ⟨?_, fun name input mapper hscripted => Scorer.provides_ofMapper name input hscripted⟩
  intro x p predictor roles hp hm plan hcontract
  have hscripted := scripted_planFor hp hm
  have hterminal := Plan.terminal_planFor p (x.chosen? p predictor roles)
  constructor
  · exact fun finish hreached =>
      Plan.outputsHeld_of_contract _ hscripted hcontract hterminal hreached
  · intro report hrun
    obtain ⟨c, hreplay, hmodel⟩ := exists_replay hrun
    rw [hmodel]
    exact Plan.outputs_bound hscripted hcontract hterminal hreplay

/-- The predictor's score takes the place of the column that the stage copied. -/
theorem no_output_dangles_copying :
    let column : Column := { name := "Score", type := .ofKind .float32 }
    let source : Schema := { columns := [column] }
    let p : Pipeline := ⟨source, [.copying source column "y"]⟩
    let predictor : Predictor := { name := "Tree", bind? := fun _ _ => some (.passing column) }
    let plan := planFor p (Exporter.chosen? {} p (some predictor) none)
    ∃ report finish, Exporter.run {} p (some predictor) none = .ok report
      ∧ report.model.program.signature.outputs.map (·.name) = ["y1", "Score2"]
      ∧ plan.upTo {} plan.stages {} = .ok () finish ∧ plan.OutputsHeld {} {} finish
      ∧ ∀ output ∈ report.model.program.signature.outputs, ∃ column name,
        plan.Binds {} column name
          ∧ .assign output.name (.variable name) ∈ report.model.program.body := by
  intro column source p predictor plan
  have hnames : (Exporter.run {} p (some predictor) none).toOption.map
      (·.model.program.signature.outputs.map (·.name)) = some ["y1", "Score2"] := by
    decide +kernel
  obtain ⟨report, hrun, hnames⟩ := exists_report hnames
  obtain ⟨c, hreplay, -⟩ := exists_replay hrun
  obtain ⟨start, finish, hinputs, hstages, -⟩ := Plan.replay_eq_ok hreplay
  have hreached : plan.upTo {} plan.stages {} = .ok () finish := by
    rw [Plan.upTo_apply, hinputs]
    exact hstages
  have hp : p.Scripted := by
    intro s hs
    obtain rfl := List.mem_singleton.mp hs
    exact Stage.scripted_copying source column "y"
  have hm : ∀ pr ∈ some predictor, ∀ scorer ∈ Resolver.byRoles pr p.terminal none,
      scorer.mapper.Scripted := by
    intro pr hpr scorer hscorer
    obtain rfl := Option.mem_some_iff.mp hpr
    obtain rfl := Option.mem_some_iff.mp hscorer
    exact Mapper.scripted_passing column
  have hpush : p.walk = (Pipeline.walk ⟨source, []⟩).pushTerminal (.copying source column "y") :=
    Pipeline.walk_push ⟨source, []⟩ rfl
  have hwalk : p.walk.KeepsContract {} := by
    rw [hpush]
    exact (Plan.keepsContract_of_empty rfl {}).pushTerminal fun emit c hemit =>
      Stage.provides_copying hemit c
  have hcontract : plan.KeepsContract {} := by
    refine hwalk.pushTerminal fun emit c hemit => ?_
    obtain rfl := Scorer.emit_of_exporter? hemit
    exact no_output_dangles.2 _ p.terminal _ (Mapper.scripted_passing column) c
  obtain ⟨hheld, hbound⟩ := no_output_dangles.1 {} p (some predictor) none hp hm hcontract
  exact ⟨report, finish, hrun, hnames, hreached, hheld finish hreached, hbound report hrun⟩

end Exporter

end ModelExport
