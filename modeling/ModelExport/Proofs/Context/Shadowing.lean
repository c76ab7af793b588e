import ModelExport.Proofs.Context.Assignment
import ModelExport.Proofs.Context.Registration

/-!
# Outputs that are introduced again

A registered output is to be assigned. A statement that introduces its name
once more puts a new variable in front of it, and what follows no longer
reaches the output. The operations that choose a name themselves never do so,
for a fresh name is not that of an output (`Context.Typed.fresh_ne_output`),
and a literal under the name of an output overwrites it. An element, however,
introduces the name that its caller chose, whatever that name stands for.

So there are two ways, and both are the caller's: a statement that is added as
it stands, and an element under the name of an output
(`Call.output_introduced_by_caller`).
-/

namespace ModelExport

/-! ## Names that calls introduce -/

/-- The statement introduces the name by the will of the caller, who gave it
as it stands or asked for an element under this name. -/
inductive Call.Introduces (name : String) : Call → Expr → Prop
  | statement {call : Call} {e : Expr} (given : e ∈ call.statements)
      (introduced : name ∈ e.introduced) : Introduces name call e
  | element (container : Expr) (path : List Expr) (fallback : Option Expr) :
      Introduces name (.access container path fallback (some name))
        (.bindOne name (.access container path fallback))

theorem Expr.mem_introduced_bindOne {n name : String} {value : Expr} :
    n ∈ (Expr.bindOne name value).introduced ↔ n = name := by
  simp [bindOne, introduced, Binding.name]

namespace Context

variable {c : Context}

theorem Typed.name_mem_of_output (h : c.Typed) {output : Parameter} (ho : output ∈ c.outputs) :
    output.name ∈ c.scope.pool.names :=
  h.taken _ (h.parameters output (List.mem_append_right _ ho))

theorem Typed.fresh_ne_output (h : c.Typed) (stem : String) {output : Parameter}
    (ho : output ∈ c.outputs) : output.name ≠ c.fresh stem :=
  fun heq => c.fresh_not_mem stem (heq ▸ h.name_mem_of_output ho)

theorem isOutput_iff {name : String} :
    c.isOutput name = true ↔ ∃ output ∈ c.outputs, output.name = name := by
  simp [isOutput]

theorem Typed.ne_empty_of_isOutput (h : c.Typed) {name : String} (ho : c.isOutput name = true) :
    name ≠ "" := by
  obtain ⟨output, hmem, rfl⟩ := isOutput_iff.mp ho
  exact h.ne_empty _ (h.parameters output (List.mem_append_right _ hmem))

/-- The statement that gives a name a literal introduces no output. -/
theorem not_mem_introduced_statementFor {name : String} {value : Expr} {output : Parameter}
    (ho : output ∈ c.outputs) : output.name ∉ (c.statementFor name value).introduced := by
  unfold statementFor
  split
  · exact List.not_mem_nil
  · next hname =>
      intro hmem
      exact hname (isOutput_iff.mpr ⟨output, ho, Expr.mem_introduced_bindOne.mp hmem⟩)

end Context

namespace Call

variable {c c' : Context} {call : Call} {answer : Except BuildError Answer}

/-! ## One call -/

/-- The statements introduce outputs of the context only by the will of the caller. -/
def IntroducesByWill (c : Context) (call : Call) (statements : List Expr) : Prop :=
  ∀ e ∈ statements, ∀ output ∈ c.outputs, output.name ∈ e.introduced →
    call.Introduces output.name e

/-- What a call adds to the body introduces an output only by the will of the caller. -/
theorem Outcome.introducesByWill (h : Outcome c call answer c') (htyped : c.Typed) :
    ∃ added, c'.body = c.body ++ added ∧ IntroducesByWill c call added := by
  have unchanged : c'.body = c.body → ∃ added, c'.body = c.body ++ added
      ∧ IntroducesByWill c call added :=
    fun hbody => ⟨[], by rw [hbody, List.append_nil], fun _ he => absurd he List.not_mem_nil⟩
  have given : ∀ es, call.statements = es → IntroducesByWill c call es :=
    fun es hes e he output _ hintro => .statement (hes ▸ he) hintro
  cases h with
  | failed call e => exact unchanged rfl
  | read hread answer => exact unchanged rfl
  | declareRef hstem => exact unchanged (by simp [Context.withVariable])
  | operatorName hstem => exact unchanged rfl
  | lookup hcolumn hb => exact unchanged (by simp)
  | allocate hcolumn hb => exact unchanged (by simp [Context.withColumn])
  | addIntermediate hcolumn hd => exact unchanged (by simp [Context.withIntermediate])
  | addInput hcolumn hd => exact unchanged (by simp [Context.withInput])
  | @addOutput type column source d hcolumn hb hd =>
      refine ⟨_, by simp [Context.withOutput]; rfl, fun e he output _ hintro => ?_⟩
      obtain rfl := List.mem_singleton.mp he
      exact absurd hintro List.not_mem_nil
  | declare hname =>
      refine ⟨_, by simp [Context.withLiteral]; rfl, fun e he output ho hintro => ?_⟩
      obtain rfl := List.mem_singleton.mp he
      exact absurd hintro (Context.not_mem_introduced_statementFor ho)
  | @access container path fallback name hpath hname =>
      refine ⟨_, by simp [Context.withElement]; rfl, fun e he output ho hintro => ?_⟩
      obtain rfl := List.mem_singleton.mp he
      have hclaimed := Expr.mem_introduced_bindOne.mp hintro
      cases name with
      | none => exact absurd hclaimed (htyped.fresh_ne_output "elem" ho)
      | some name =>
          obtain rfl : output.name = name := hclaimed
          exact .element container path fallback
  | bindColumn hcolumn hn => exact unchanged rfl
  | addExpr e => exact ⟨[e], rfl, given _ rfl⟩
  | addExprs es => exact ⟨es, rfl, given _ rfl⟩
  | addFunction hname hf ho => exact unchanged rfl

/-! ## Runs -/

theorem run_introducesByWill (calls : List Call) {c : Context} (htyped : c.Typed) :
    ∃ added, (run calls c).2.body = c.body ++ added ∧ ∀ e ∈ added, ∀ output ∈ c.outputs,
      output.name ∈ e.introduced → ∃ call ∈ calls, call.Introduces output.name e := by
  induction calls generalizing c with
  | nil => exact ⟨[], (List.append_nil _).symm, fun _ he => absurd he List.not_mem_nil⟩
  | cons call calls ih =>
      have houtcome := step_outcome call c
      obtain ⟨first, hfirst, hcall⟩ := houtcome.introducesByWill htyped
      obtain ⟨rest, hrest, hcalls⟩ := ih (houtcome.typed htyped).1
      refine ⟨first ++ rest, ?_, fun e he output ho hintro => ?_⟩
      · rw [run_cons, hrest, hfirst, List.append_assoc]
      · rcases List.mem_append.mp he with he | he
        · exact ⟨call, List.mem_cons_self .., hcall e he output ho hintro⟩
        · obtain ⟨later, hlater, hby⟩ :=
            hcalls e he output (houtcome.grows.outputs.subset ho) hintro
          exact ⟨later, List.mem_cons_of_mem _ hlater, hby⟩

/-- A literal under the name of an output is assigned to it. -/
theorem step_declare_of_isOutput (htyped : c.Typed) {name : String} (ho : c.isOutput name = true)
    (value : Value) :
    ((declare value (some name)).step c).1 = .ok (.name name)
      ∧ ((declare value (some name)).step c).2.body
          = c.body ++ [.assign name (.literal value)] := by
  have hname : some name ≠ some "" := fun h =>
    htyped.ne_empty_of_isOutput ho (Option.some.inj h)
  rw [step_eq, perform, map_apply, Build.declare_apply, if_neg hname]
  refine ⟨rfl, ?_⟩
  simp [Context.withLiteral, Scope.claiming, Context.statementFor, ho]

/-- An element introduces the name that it was asked under. -/
theorem step_access_of_name {name : String} (hname : name ≠ "") (container : Expr)
    {path : List Expr} (hpath : path ≠ []) (fallback : Option Expr) :
    ((access container path fallback (some name)).step c).1 = .ok (.name name)
      ∧ ((access container path fallback (some name)).step c).2.body
          = c.body ++ [.bindOne name (.access container path fallback)] := by
  rw [step_eq, perform, map_apply, Build.access_apply, if_neg (by simpa using hpath),
    if_neg (by simpa using hname)]
  refine ⟨rfl, ?_⟩
  simp [Context.withElement, Scope.claiming]

/-- In every run, the statements below the registration of an output that
introduce its name again are those that the caller gave as they stand and the
elements that the caller asked for under this very name. A literal under the
name of an output is assigned to it, an element under it introduces it. -/
theorem output_introduced_by_caller (calls later : List Call) :
    let c := (run calls {}).2
    (∃ added, (run (calls ++ later) {}).2.body = c.body ++ added
        ∧ ∀ e ∈ added, ∀ output ∈ c.outputs, output.name ∈ e.introduced →
            ∃ call ∈ later, call.Introduces output.name e)
    ∧ ∀ name, c.isOutput name = true →
        (∀ value, ((declare value (some name)).step c).1 = .ok (.name name)
          ∧ ((declare value (some name)).step c).2.body
              = c.body ++ [.assign name (.literal value)])
        ∧ ∀ container path fallback, path ≠ [] →
            ((access container path fallback (some name)).step c).1 = .ok (.name name)
            ∧ ((access container path fallback (some name)).step c).2.body
                = c.body ++ [.bindOne name (.access container path fallback)] := by
  intro c
  have htyped : c.Typed := (run_typed Context.typed_empty calls).1
  refine ⟨?_, fun name ho => ⟨step_declare_of_isOutput htyped ho, ?_⟩⟩
  · rw [run_append]
    exact run_introducesByWill later htyped
  · intro container path fallback hpath
    exact step_access_of_name (htyped.ne_empty_of_isOutput ho) container hpath fallback

/-- An output is introduced again although no statement was given as it stands. -/
theorem element_introduces_output :
    let calls : List Call :=
      [.addInput (.ofKind .float32) "X", .addOutput (.ofKind .float32) "X"]
    let later : List Call := [.access (.variable "X") [.literal (.int64 0)] none (some "X1")]
    (∀ call ∈ calls ++ later, call.statements = [])
      ∧ (run calls {}).2.isOutput "X1" = true
      ∧ ∃ e, (run (calls ++ later) {}).2.body = (run calls {}).2.body ++ [e]
          ∧ "X1" ∈ e.introduced := by
  refine ⟨by simp [statements], by decide +kernel, ?_⟩
  exact ⟨.bindOne "X1" (.access (.variable "X") [.literal (.int64 0)] none), rfl,
    Expr.mem_introduced_bindOne.mpr rfl⟩

end Call

end ModelExport
