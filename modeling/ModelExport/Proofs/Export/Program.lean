import ModelExport.Proofs.Export.Choice
import ModelExport.Proofs.Scorer.Variables

/-!
# The program of a model

Where neither the stages nor the mapper register inputs or outputs of
their own (`Exporter.LeavesSignature`), the program of an export is laid
out by its plan: an input for each column that it starts from, the parts
that the stages contribute, and a copy to an output for each column that
it ends with (`Exporter.program_realizes_plan`). The copies read what the
columns are held by behind the last stage, whatever the stages bound in
between.
-/

namespace ModelExport

/-! ## Contributions that leave the signature alone -/

/-- Made in this context, the contribution registers no inputs and no outputs. -/
def Build.LeavesSignature {α : Type} (b : Build α) (c : Context) : Prop :=
  ∀ a c', b c = .ok a c' → c'.inputs = c.inputs ∧ c'.outputs = c.outputs

namespace Build

variable {α β : Type} {c : Context}

theorem LeavesSignature.bind {b : Build α} {f : α → Build β} (hb : b.LeavesSignature c)
    (hf : ∀ a c', (f a).LeavesSignature c') : LeavesSignature (b >>= f) c := by
  intro a c'' h
  obtain ⟨a₁, c', hfirst, hrest⟩ := bind_eq_ok h
  obtain ⟨hinputs, houtputs⟩ := hb a₁ c' hfirst
  obtain ⟨hinputs', houtputs'⟩ := hf a₁ c' a c'' hrest
  exact ⟨hinputs'.trans hinputs, houtputs'.trans houtputs⟩

theorem leavesSignature_lookupOrAllocate (column : String) :
    (lookupOrAllocate column).LeavesSignature c := by
  intro name c' h
  obtain rfl := lookupOrAllocate_eq_ok h
  exact ⟨c.inputs_holding column, c.outputs_holding column⟩

theorem leavesSignature_addIntermediate (type : ColumnType) (column : String) :
    (addIntermediate type column).LeavesSignature c := by
  intro name c' h
  obtain ⟨d, -, rfl⟩ := addIntermediate_eq_ok h
  constructor <;> simp [Context.withIntermediate]

theorem leavesSignature_addExpr (e : Expr) : (addExpr e).LeavesSignature c := by
  intro u c' h
  injection h with hanswer hcontext
  rw [← hcontext]
  exact ⟨rfl, rfl⟩

theorem leavesSignature_addExprs (es : List Expr) : (addExprs es).LeavesSignature c := by
  intro u c' h
  injection h with hanswer hcontext
  rw [← hcontext]
  exact ⟨rfl, rfl⟩

end Build

theorem Stage.leavesSignature_copying {input : Schema} {column : Column} {copy : String}
    {emit : Build Unit} (h : (Stage.copying input column copy).exporter? = some emit)
    (c : Context) : emit.LeavesSignature c := by
  obtain rfl := Option.some.inj h
  exact (Build.leavesSignature_lookupOrAllocate _).bind fun _ _ =>
    (Build.leavesSignature_addIntermediate _ _).bind fun _ _ => Build.leavesSignature_addExpr _

theorem Mapper.leavesSignature_passing (column : Column) (names : List String) (c : Context) :
    ((Mapper.passing column).emit names).LeavesSignature c :=
  (Build.leavesSignature_lookupOrAllocate _).bind fun _ _ => Build.leavesSignature_addExprs _

/-! ## Programs and plans -/

/-- The program starts from inputs for the columns that the plan starts
from and ends with copies to outputs for those that it ends with. In
between are the parts of the stages. -/
structure Plan.Realizes (p : Plan) (inputsToDrop outputsToDrop : NameSet) (program : Program)
    (start : Context) (parts : List (List Expr)) (finish : Context) (copies : List Copy) :
    Prop where
  started : Replay.inputs (p.inputColumns inputsToDrop) {} = .ok () start
  contributed : Contributes start p.stages parts finish
  copied : Copied finish (p.outputColumns inputsToDrop outputsToDrop) copies
  typed : List.Forall₂ Column.Types (p.inputColumns inputsToDrop) program.signature.inputs
  named : (p.source.visible.map (·.name)).Nodup →
    program.signature.inputs.map (·.name) = (p.inputColumns inputsToDrop).map (·.name)
  outputs : program.signature.outputs = copies.map (·.output)
  body : program.body = parts.flatten ++ copies.map Copy.statement

namespace Plan

variable {p : Plan} {inputsToDrop outputsToDrop : NameSet}

theorem nodup_inputColumns (h : (p.source.visible.map (·.name)).Nodup) :
    ((p.inputColumns inputsToDrop).map (·.name)).Nodup :=
  h.sublist (List.Sublist.map _ List.filter_sublist)

/-- Turns that leave the signature alone leave it as the inputs made it. -/
theorem signature_of_turns {start finish : Context}
    (hleft : ∀ before stage emit c, p.Turn inputsToDrop before stage emit c →
      emit.LeavesSignature c)
    (hinputs : Replay.inputs (p.inputColumns inputsToDrop) {} = .ok () start)
    (hstages : Replay.stages p.stages start = .ok () finish) :
    finish.inputs = start.inputs ∧ finish.outputs = start.outputs := by
  have hreached : p.upTo inputsToDrop p.stages {} = .ok () finish := by
    rw [upTo_apply, hinputs]
    exact hstages
  refine holds_of_turns (fun c => c.inputs = start.inputs ∧ c.outputs = start.outputs) ?_ ?_
    (List.prefix_refl p.stages) hreached
  · intro c hc
    rw [hinputs] at hc
    injection hc with _ hcontext
    rw [hcontext]
    exact ⟨rfl, rfl⟩
  · intro before stage emit c c' hturn hemit hearlier
    obtain ⟨hins, houts⟩ := hleft before stage emit c hturn () c' hemit
    exact ⟨hins.trans hearlier.1, houts.trans hearlier.2⟩

theorem realizes_of_replay (hscripted : ∀ s ∈ p.stages, s.Scripted)
    (hleft : ∀ before stage emit c, p.Turn inputsToDrop before stage emit c →
      emit.LeavesSignature c)
    {c : Context} (h : p.replay inputsToDrop outputsToDrop {} = .ok () c) (name : String) :
    ∃ start parts finish copies,
      p.Realizes inputsToDrop outputsToDrop (c.program name) start parts finish copies := by
  obtain ⟨start, finish, hstart, hfinish, houtputs⟩ := replay_eq_ok h
  obtain ⟨added, hadded, hnone, hempty, htyped, hnamed⟩ := Replay.inputs_eq_ok hstart
  obtain ⟨parts, hparts⟩ := Replay.stages_eq_ok hscripted hfinish
  obtain ⟨copies, hcopied, hins, houts, hbody⟩ := Replay.outputs_eq_ok houtputs
  obtain ⟨hins', houts'⟩ := signature_of_turns hleft hstart hfinish
  have hinputs : c.inputs = added := by
    rw [hins, hins', hadded]
    rfl
  refine ⟨start, parts, finish, copies, ?_⟩
  refine
    { started := hstart
      contributed := hparts
      copied := hcopied
      typed := by rw [← hinputs] at htyped; exact htyped
      named := ?_
      outputs := ?_
      body := ?_ }
  · intro hnodup
    have hnames := hnamed (nodup_inputColumns hnodup) fun _ _ => List.not_mem_nil
    rw [← hinputs] at hnames
    exact hnames
  · show c.outputs = copies.map (·.output)
    rw [houts, houts', hnone]
    rfl
  · show c.body = parts.flatten ++ copies.map Copy.statement
    rw [hbody, hparts.body_eq, hempty]
    rfl

end Plan

/-! ## Exports -/

namespace Exporter

/-- In this export, neither the stages nor the mapper register inputs or
outputs when they have their turn. -/
structure LeavesSignature (x : Exporter) (p : Pipeline) (predictor : Option Predictor)
    (roles : Option Roles) : Prop where
  stages : ∀ before stage emit c, p.walk.Turn x.options.inputsToDrop before stage emit c →
    emit.LeavesSignature c
  mapper : ∀ pr ∈ predictor, ∀ scorer ∈ x.resolver pr p.terminal roles,
    x.chosen? p predictor roles = some scorer.toStage → ∀ c names c',
      scorer.Turn p.walk x.options.inputsToDrop c names c' →
        (scorer.mapper.emit names).LeavesSignature c'

variable {x : Exporter} {p : Pipeline} {predictor : Option Predictor} {roles : Option Roles}

theorem leavesSignature_emit {s : Scorer} {plan : Plan} {inputsToDrop : NameSet} {c : Context}
    (hreached : plan.upTo inputsToDrop plan.stages {} = .ok () c)
    (h : ∀ names c', s.Turn plan inputsToDrop c names c' →
      (s.mapper.emit names).LeavesSignature c') : s.emit.LeavesSignature c := by
  intro u c'' hemit
  obtain ⟨names, c', hdeclared, hmapper⟩ := Scorer.emit_eq_ok hemit
  obtain ⟨slots, hdeclares, -⟩ := Scorer.declareOutputs_eq_ok hdeclared
  obtain ⟨hinputs, houtputs⟩ := h names c' ⟨hreached, hdeclared⟩ u c'' hmapper
  exact ⟨hinputs.trans hdeclares.inputs, houtputs.trans hdeclares.outputs⟩

/-- So the scorer, which only declares variables besides, registers none either. -/
theorem LeavesSignature.of_turn (h : x.LeavesSignature p predictor roles) {before : List Stage}
    {stage : Stage} {emit : Build Unit} {c : Context}
    (hturn : (planFor p (x.chosen? p predictor roles)).Turn x.options.inputsToDrop before stage
      emit c) : emit.LeavesSignature c := by
  rcases turn_cases hturn with hearlier | ⟨pr, hpr, scorer, hscorer, hchosen, rfl, hreached⟩
  · exact h.stages before stage emit c hearlier
  · exact leavesSignature_emit hreached (h.mapper pr hpr scorer hscorer hchosen c)

theorem program_realizes_plan (x : Exporter) (p : Pipeline) (predictor : Option Predictor)
    (roles : Option Roles) (report : Report) (hp : p.Scripted)
    (hm : ∀ pr ∈ predictor, ∀ scorer ∈ x.resolver pr p.terminal roles, scorer.mapper.Scripted)
    (hleft : x.LeavesSignature p predictor roles)
    (hrun : x.run p predictor roles = .ok report) :
    ∃ start parts finish copies,
      (planFor p (x.chosen? p predictor roles)).Realizes x.options.inputsToDrop
        x.options.outputsToDrop report.model.program start parts finish copies := by
  have hscripted := scripted_planFor hp hm
  obtain ⟨c, hreplay, hmodel⟩ := exists_replay hrun
  rw [hmodel]
  exact Plan.realizes_of_replay hscripted (fun _ _ _ _ hturn => hleft.of_turn hturn) hreplay _

/-- The predictor's score takes the place of a column of the source. -/
theorem program_realizes_plan_copying :
    let column : Column := { name := "Score", type := .ofKind .float32 }
    let source : Schema := { columns := [column] }
    let p : Pipeline := ⟨source, [.copying source column "y"]⟩
    let predictor : Predictor := { name := "Tree", bind? := fun _ _ => some (.passing column) }
    let plan := planFor p (Exporter.chosen? {} p (some predictor) none)
    ∃ report, Exporter.run {} p (some predictor) none = .ok report
      ∧ report.model.program.types.names = ["Score", "y", "Score1", "y1", "Score2"]
      ∧ ∃ start parts finish copies,
        plan.Realizes {} {} report.model.program start parts finish copies := by
  intro column source p predictor plan
  have hnames : (Exporter.run {} p (some predictor) none).toOption.map
      (·.model.program.types.names) = some ["Score", "y", "Score1", "y1", "Score2"] := by
    decide +kernel
  obtain ⟨report, hrun, hnames⟩ := exists_report hnames
  refine ⟨report, hrun, hnames, ?_⟩
  refine program_realizes_plan {} p (some predictor) none report ?_ ?_ ?_ hrun
  · intro s hs
    obtain rfl := List.mem_singleton.mp hs
    exact Stage.scripted_copying source column "y"
  · intro pr hpr scorer hscorer
    obtain rfl := Option.mem_some_iff.mp hpr
    obtain rfl := Option.mem_some_iff.mp hscorer
    exact Mapper.scripted_passing column
  · constructor
    · intro before stage emit c hturn
      obtain rfl := List.mem_singleton.mp (p.stages_walk_subset hturn.mem)
      exact Stage.leavesSignature_copying hturn.exporter c
    · intro pr hpr scorer hscorer _ _ names c' _
      obtain rfl := Option.mem_some_iff.mp hpr
      obtain rfl := Option.mem_some_iff.mp hscorer
      exact Mapper.leavesSignature_passing column names c'

end Exporter

end ModelExport
