import ModelExport.Pipeline.Replay
import ModelExport.Proofs.Context.Operation
import ModelExport.Proofs.Pipeline.Walk

/-!
# How a replay can fail

A replay registers inputs, lets the stages contribute and registers
outputs. Whether a column can be an input or an output depends on the
column alone and not on the context (`Column.refusal?`): the pass over the
outputs makes sure that each column is held by a variable before it
registers the output, so a column that nobody bound is no reason to fail.
Both passes therefore fail at the first column that is refused, if there
is one (`IsPass`). A stage fails when its contribution does, in the
context in which it has its turn (`Plan.Turn`). `Plan.replay_eq_error_iff`
puts the three parts together.
-/

namespace ModelExport

/-! ## Refused columns -/

namespace Column

/-- Why the column can be neither an input nor an output. -/
def refusal? (c : Column) : Option BuildError :=
  if c.name = "" then some (.argument .emptyColumn)
  else match c.type.rawKind.elementKind? with
    | none => some (.noElementKind c.type.rawKind)
    | some _ => none

theorem refusal?_of_empty {c : Column} (h : c.name = "") :
    c.refusal? = some (.argument .emptyColumn) :=
  if_pos h

theorem refusal?_of_untyped {c : Column} (h : c.name ≠ "") (hd : c.type.descriptor? = none) :
    c.refusal? = some (.noElementKind c.type.rawKind) := by
  rw [refusal?, if_neg h, Option.map_eq_none_iff.mp hd]

theorem refusal?_of_typed {c : Column} (h : c.name ≠ "") {d : Descriptor}
    (hd : c.type.descriptor? = some d) : c.refusal? = none := by
  obtain ⟨kind, hkind, -⟩ := Option.map_eq_some_iff.mp hd
  rw [refusal?, if_neg h, hkind]

theorem refusal?_eq_none {c : Column} :
    c.refusal? = none ↔ c.name ≠ "" ∧ ∃ d, c.type.descriptor? = some d := by
  constructor
  · intro h
    by_cases hname : c.name = ""
    · rw [refusal?_of_empty hname] at h
      cases h
    · cases hd : c.type.descriptor? with
      | none =>
          rw [refusal?_of_untyped hname hd] at h
          cases h
      | some d => exact ⟨hname, d, rfl⟩
  · rintro ⟨hname, d, hd⟩
    exact refusal?_of_typed hname hd

theorem refusal?_eq_some {c : Column} {e : BuildError} (h : c.refusal? = some e) :
    (c.name = "" ∧ e = .argument .emptyColumn)
      ∨ (c.name ≠ "" ∧ c.type.descriptor? = none ∧ e = .noElementKind c.type.rawKind) := by
  by_cases hname : c.name = ""
  · rw [refusal?_of_empty hname] at h
    exact Or.inl ⟨hname, (Option.some.inj h).symm⟩
  · cases hd : c.type.descriptor? with
    | none =>
        rw [refusal?_of_untyped hname hd] at h
        exact Or.inr ⟨hname, rfl, (Option.some.inj h).symm⟩
    | some d =>
        rw [refusal?_of_typed hname hd] at h
        cases h

end Column

/-! ## Columns and the variables that hold them -/

namespace Context

variable (c : Context)

/-- The variable that holds the column, or the one that it would get. -/
def holder (column : String) : String := (c.variableOf? column).getD (c.fresh column)

/-- With some variable that holds the column. -/
def holding (column : String) : Context :=
  match c.variableOf? column with
  | some name => c.keepReference name
  | none => c.withColumn column

theorem holding_of_some {column name : String} (h : c.variableOf? column = some name) :
    c.holding column = c.keepReference name := by
  rw [holding, h]

theorem holding_of_none {column : String} (h : c.variableOf? column = none) :
    c.holding column = c.withColumn column := by
  rw [holding, h]

/-- With an output of the type for the column, which some variable holds. -/
def withOutputOf (column : String) (type : Descriptor) : Context :=
  (c.holding column).withOutput column (c.holder column) type

theorem variableOf?_withColumn (column other : String) :
    (c.withColumn column).variableOf? other
      = if other = column then some (c.fresh column) else c.variableOf? other :=
  variableOf?_of_binding (by simp [withColumn, Scope.binding]) other

theorem variableOf?_holding (column : String) :
    (c.holding column).variableOf? column = some (c.holder column) := by
  cases h : c.variableOf? column with
  | some name =>
      have hsame : (c.keepReference name).variableOf? column = c.variableOf? column :=
        variableOf?_of_same (by rw [scope_keepReference]) column
      rw [holding_of_some c h, hsame, holder, h]
      rfl
  | none =>
      rw [holding_of_none c h, variableOf?_withColumn, if_pos rfl, holder, h]
      rfl

end Context

namespace Build

theorem lookupOrAllocate_eq (c : Context) {column : String} (h : column ≠ "") :
    lookupOrAllocate column c = .ok (c.holder column) (c.holding column) := by
  rw [lookupOrAllocate_apply, if_neg h, Context.holder, Context.holding]
  cases c.variableOf? column <;> rfl

theorem lookupOrAllocate_eq_ok {c c' : Context} {column name : String}
    (h : lookupOrAllocate column c = .ok name c') : c' = c.holding column := by
  by_cases hempty : column = ""
  · rw [lookupOrAllocate_apply, if_pos hempty] at h
    cases h
  · rw [lookupOrAllocate_eq c hempty] at h
    injection h with _ hcontext
    exact hcontext.symm

end Build

/-! ## Passes over columns -/

namespace Replay

theorem ofBuild_apply {α : Type} (report : BuildError → ExportError) (b : Build α) (c : Context) :
    ofBuild report b c = match b c with
      | .ok a c => .ok a c
      | .error e c => .error (report e) c := rfl

/-- Registers an output for one column. -/
def output (column : Column) : Replay String := do
  let _ ← ofBuild .build (Build.lookupOrAllocate column.name)
  ofBuild .build (Build.addOutput column.type column.name)

theorem inputs_cons (column : Column) (columns : List Column) :
    inputs (column :: columns)
      = ofBuild .build (Build.addInput column.type column.name) >>= fun _ => inputs columns := rfl

theorem outputs_cons (column : Column) (columns : List Column) :
    outputs (column :: columns) = output column >>= fun _ => outputs columns := by
  funext c
  rw [outputs, output, bind_apply, bind_apply, bind_apply]
  cases ofBuild ExportError.build (Build.lookupOrAllocate column.name) c with
  | ok name c =>
      dsimp only
      rw [bind_apply]
  | error e c => rfl

section Column

variable {column : Column} (c : Context)

theorem input_of_refused {e : BuildError} (h : column.refusal? = some e) :
    ofBuild .build (Build.addInput column.type column.name) c = .error (.build e) c := by
  rw [ofBuild_apply, Build.addInput_apply]
  rcases Column.refusal?_eq_some h with ⟨hname, rfl⟩ | ⟨hname, hd, rfl⟩
  · rw [if_pos hname]
  · rw [if_neg hname, hd]

theorem input_of_typed (hname : column.name ≠ "") {d : Descriptor}
    (hd : column.type.descriptor? = some d) :
    ofBuild .build (Build.addInput column.type column.name) c
      = .ok (c.fresh column.name) (c.withInput column.name d) := by
  rw [ofBuild_apply, Build.addInput_apply, if_neg hname, hd]

theorem output_of_refused {e : BuildError} (h : column.refusal? = some e) :
    ∃ c', output column c = .error (.build e) c' := by
  rcases Column.refusal?_eq_some h with ⟨hname, rfl⟩ | ⟨hname, hd, rfl⟩
  · refine ⟨c, ?_⟩
    rw [output, bind_apply, ofBuild_apply, Build.lookupOrAllocate_apply, if_pos hname]
  · refine ⟨c.holding column.name, ?_⟩
    rw [output, bind_apply, ofBuild_apply, Build.lookupOrAllocate_eq c hname]
    dsimp only
    rw [ofBuild_apply, Build.addOutput_apply, if_neg hname, c.variableOf?_holding, hd]

theorem output_of_typed (hname : column.name ≠ "") {d : Descriptor}
    (hd : column.type.descriptor? = some d) :
    output column c = .ok ((c.holding column.name).fresh column.name)
      (c.withOutputOf column.name d) := by
  rw [output, bind_apply, ofBuild_apply, Build.lookupOrAllocate_eq c hname]
  dsimp only
  rw [ofBuild_apply, Build.addOutput_apply, if_neg hname, c.variableOf?_holding, hd]
  rfl

end Column

/-- The pass handles the columns one after the other, each of them in
whatever context it comes to, unless the column is refused. -/
structure IsPass (pass : List Column → Replay Unit) (each : Column → Replay String) : Prop where
  nil : pass [] = pure ()
  cons (column : Column) (columns : List Column) :
    pass (column :: columns) = each column >>= fun _ => pass columns
  refused {column : Column} {e : BuildError} (h : column.refusal? = some e) (c : Context) :
    ∃ c', each column c = .error (.build e) c'
  accepted {column : Column} (h : column.refusal? = none) (c : Context) :
    ∃ name c', each column c = .ok name c'

theorem isPass_inputs :
    IsPass inputs fun column => ofBuild .build (Build.addInput column.type column.name) where
  nil := rfl
  cons := inputs_cons
  refused h c := ⟨c, input_of_refused c h⟩
  accepted h c := by
    obtain ⟨hname, d, hd⟩ := Column.refusal?_eq_none.mp h
    exact ⟨_, _, input_of_typed c hname hd⟩

theorem isPass_outputs : IsPass outputs output where
  nil := rfl
  cons := outputs_cons
  refused h c := output_of_refused c h
  accepted h c := by
    obtain ⟨hname, d, hd⟩ := Column.refusal?_eq_none.mp h
    exact ⟨_, _, output_of_typed c hname hd⟩

namespace IsPass

variable {pass : List Column → Replay Unit} {each : Column → Replay String}
  {columns : List Column} {c : Context}

/-- A pass fails at the first column that is refused, and if none is, it succeeds. -/
theorem outcome (hpass : IsPass pass each) (columns : List Column) (c : Context) :
    (∃ e c', columns.findSome? Column.refusal? = some e ∧ pass columns c = .error (.build e) c')
      ∨ (columns.findSome? Column.refusal? = none ∧ ∃ c', pass columns c = .ok () c') := by
  induction columns generalizing c with
  | nil => exact Or.inr ⟨rfl, c, by rw [hpass.nil]; rfl⟩
  | cons column columns ih =>
      rw [List.findSome?_cons, hpass.cons, bind_apply]
      cases hcolumn : column.refusal? with
      | some e =>
          obtain ⟨c', heach⟩ := hpass.refused hcolumn c
          exact Or.inl ⟨e, c', rfl, by rw [heach]⟩
      | none =>
          obtain ⟨name, c', heach⟩ := hpass.accepted hcolumn c
          rw [heach]
          exact ih c'

theorem eq_error_iff (hpass : IsPass pass each) {e : ExportError} :
    (∃ c', pass columns c = .error e c')
      ↔ ∃ b, columns.findSome? Column.refusal? = some b ∧ e = .build b := by
  rcases hpass.outcome columns c with ⟨b, c', hb, hrun⟩ | ⟨hnone, c', hrun⟩
  · rw [hrun, hb]
    constructor
    · rintro ⟨_, heq⟩
      injection heq with he
      exact ⟨b, rfl, he.symm⟩
    · rintro ⟨_, hsome, rfl⟩
      exact ⟨c', by rw [Option.some.inj hsome]⟩
  · rw [hrun, hnone]
    constructor
    · rintro ⟨_, heq⟩
      cases heq
    · rintro ⟨_, hsome, _⟩
      cases hsome

end IsPass

/-! ## Stages -/

theorem stages_cons {stage : Stage} {emit : Build Unit} (h : stage.exporter? = some emit)
    (rest : List Stage) :
    stages (stage :: rest)
      = ofBuild (.stageFailed stage.name) emit >>= fun _ => stages rest := by
  rw [stages, h]

theorem stages_append (before later : List Stage) (c : Context) :
    stages (before ++ later) c = match stages before c with
      | .ok _ c => stages later c
      | .error e c => .error e c := by
  induction before generalizing c with
  | nil => rfl
  | cons stage before ih =>
      cases hs : stage.exporter? with
      | none =>
          rw [List.cons_append, stages, stages, hs]
          rfl
      | some emit =>
          rw [List.cons_append, stages_cons hs, stages_cons hs, bind_apply, bind_apply]
          cases ofBuild (.stageFailed stage.name) emit c with
          | ok u c => exact ih c
          | error e c => rfl

/-- Stages that can be exported fail where the first contribution fails. -/
theorem stages_eq_error_iff {rest : List Stage} (hall : AllExportable rest) {c : Context}
    {e : ExportError} :
    (∃ c', stages rest c = .error e c')
      ↔ ∃ before stage later emit b c₁ c₂, rest = before ++ stage :: later
          ∧ stages before c = .ok () c₁ ∧ stage.exporter? = some emit
          ∧ emit c₁ = .error b c₂ ∧ e = .stageFailed stage.name b := by
  constructor
  · rintro ⟨c', h⟩
    induction rest generalizing c with
    | nil => cases h
    | cons stage rest ih =>
        obtain ⟨emit, hs⟩ := Option.isSome_iff_exists.mp (hall stage (List.mem_cons_self ..))
        have hrest : AllExportable rest := fun t ht => hall t (List.mem_cons_of_mem _ ht)
        have hstep := congrFun (stages_cons hs rest) c
        rw [bind_apply, ofBuild_apply] at hstep
        cases hemit : emit c with
        | error b c₂ =>
            rw [hemit, h] at hstep
            injection hstep with he
            exact ⟨[], stage, rest, emit, b, c, c₂, rfl, rfl, hs, hemit, he⟩
        | ok u c₁ =>
            rw [hemit, h] at hstep
            obtain ⟨before, failing, later, emit', b, c₂, c₃, rfl, hbefore, hfailing⟩ :=
              ih hrest hstep.symm
            refine ⟨stage :: before, failing, later, emit', b, c₂, c₃, rfl, ?_, hfailing⟩
            rw [stages_cons hs, bind_apply, ofBuild_apply, hemit]
            exact hbefore
  · rintro ⟨before, stage, later, emit, b, c₁, c₂, rfl, hbefore, hs, hemit, rfl⟩
    refine ⟨c₂, ?_⟩
    rw [stages_append, hbefore]
    dsimp only
    rw [stages_cons hs, bind_apply, ofBuild_apply, hemit]

end Replay

/-! ## Plans -/

namespace Plan

variable (p : Plan) (inputsToDrop outputsToDrop : NameSet)

/-- The columns that the plan registers as inputs. -/
def inputColumns : List Column := p.source.kept inputsToDrop

/-- The columns that the plan registers as outputs. -/
def outputColumns : List Column :=
  (p.terminal.kept outputsToDrop).filter (fun c => !inputsToDrop.contains c.name)

/-- The replay as far as the end of the given stages. -/
def upTo (stages : List Stage) : Replay Unit := do
  Replay.inputs (p.inputColumns inputsToDrop)
  Replay.stages stages

/-- It is the turn of the stage to contribute: those before it have
contributed, and they left the context. -/
structure Turn (before : List Stage) (stage : Stage) (emit : Build Unit) (c : Context) :
    Prop where
  position : before ++ [stage] <+: p.stages
  exporter : stage.exporter? = some emit
  reached : p.upTo inputsToDrop before {} = .ok () c

/-- The ways in which a replay can fail. Each presupposes that the parts
before it succeed. -/
inductive FailsWith : ExportError → Prop
  /-- The first input column that is refused. -/
  | input {e : BuildError}
      (h : (p.inputColumns inputsToDrop).findSome? Column.refusal? = some e) :
      FailsWith (.build e)
  /-- The first stage whose contribution fails. -/
  | stage {before : List Stage} {stage : Stage} {emit : Build Unit} {c c' : Context}
      {e : BuildError} (hturn : p.Turn inputsToDrop before stage emit c)
      (h : emit c = .error e c') : FailsWith (.stageFailed stage.name e)
  /-- The first output column that is refused. -/
  | output {c : Context} {e : BuildError} (hreached : p.upTo inputsToDrop p.stages {} = .ok () c)
      (h : (p.outputColumns inputsToDrop outputsToDrop).findSome? Column.refusal? = some e) :
      FailsWith (.build e)

variable {p} {inputsToDrop outputsToDrop}

theorem upTo_apply (stages : List Stage) (c : Context) :
    p.upTo inputsToDrop stages c = match Replay.inputs (p.inputColumns inputsToDrop) c with
      | .ok _ c => Replay.stages stages c
      | .error e c => .error e c := by
  rw [upTo, bind_apply]
  cases Replay.inputs (p.inputColumns inputsToDrop) c <;> rfl

theorem replay_apply (c : Context) :
    p.replay inputsToDrop outputsToDrop c = match p.upTo inputsToDrop p.stages c with
      | .ok _ c => Replay.outputs (p.outputColumns inputsToDrop outputsToDrop) c
      | .error e c => .error e c := by
  show (Replay.inputs (p.inputColumns inputsToDrop) >>= fun _ => Replay.stages p.stages >>=
    fun _ => Replay.outputs (p.outputColumns inputsToDrop outputsToDrop)) c = _
  rw [bind_apply, upTo_apply]
  cases Replay.inputs (p.inputColumns inputsToDrop) c with
  | ok u c =>
      dsimp only
      rw [bind_apply]
      cases Replay.stages p.stages c <;> rfl
  | error e c => rfl

/-- The replay of stages that can be exported fails in one of the ways of
`FailsWith`, and in none other. -/
theorem replay_eq_error_iff (hall : AllExportable p.stages) {e : ExportError} :
    (∃ c, p.replay inputsToDrop outputsToDrop {} = .error e c)
      ↔ p.FailsWith inputsToDrop outputsToDrop e := by
  constructor
  · rintro ⟨c', h⟩
    rw [replay_apply, upTo_apply] at h
    cases hinputs : Replay.inputs (p.inputColumns inputsToDrop) {} with
    | error e' c =>
        rw [hinputs] at h
        injection h with he
        obtain ⟨b, hb, rfl⟩ := Replay.isPass_inputs.eq_error_iff.mp ⟨c, hinputs⟩
        exact he ▸ .input hb
    | ok u c =>
        rw [hinputs] at h
        dsimp only at h
        cases hstages : Replay.stages p.stages c with
        | error e' c₂ =>
            rw [hstages] at h
            injection h with he
            obtain ⟨before, stage, later, emit, b, c₁, c₂, hsplit, hbefore, hs, hemit, rfl⟩ :=
              (Replay.stages_eq_error_iff hall).mp ⟨c₂, hstages⟩
            have hturn : p.Turn inputsToDrop before stage emit c₁ :=
              { position := ⟨later, by rw [hsplit, List.append_assoc]; rfl⟩
                exporter := hs
                reached := by rw [upTo_apply, hinputs]; exact hbefore }
            exact he ▸ .stage hturn hemit
        | ok u c₂ =>
            rw [hstages] at h
            obtain ⟨b, hb, rfl⟩ := Replay.isPass_outputs.eq_error_iff.mp ⟨c', h⟩
            exact .output (by rw [upTo_apply, hinputs]; exact hstages) hb
  · intro h
    cases h with
    | input hb =>
        obtain ⟨c, hinputs⟩ := (Replay.isPass_inputs.eq_error_iff (c := {})).mpr ⟨_, hb, rfl⟩
        exact ⟨c, by rw [replay_apply, upTo_apply, hinputs]⟩
    | stage hturn hemit =>
        obtain ⟨later, hsplit⟩ := hturn.position
        rw [List.append_assoc, List.singleton_append] at hsplit
        have hreached := hturn.reached
        rw [upTo_apply] at hreached
        cases hinputs : Replay.inputs (p.inputColumns inputsToDrop) {} with
        | error e c =>
            rw [hinputs] at hreached
            cases hreached
        | ok u c =>
            rw [hinputs] at hreached
            obtain ⟨c', hstages⟩ := (Replay.stages_eq_error_iff hall).mpr
              ⟨_, _, later, _, _, _, _, hsplit.symm, hreached, hturn.exporter, hemit, rfl⟩
            exact ⟨c', by rw [replay_apply, upTo_apply, hinputs]; dsimp only; rw [hstages]⟩
    | output hreached hb =>
        obtain ⟨c', houtputs⟩ := Replay.isPass_outputs.eq_error_iff.mpr ⟨_, hb, rfl⟩
        exact ⟨c', by rw [replay_apply, hreached]; exact houtputs⟩

end Plan

end ModelExport
