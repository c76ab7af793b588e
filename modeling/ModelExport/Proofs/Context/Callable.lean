import ModelExport.Proofs.Context.Failure
import ModelExport.Proofs.Context.Namespaces
import ModelExport.Proofs.Names.Pool

/-!
# Operators and functions

Operators and functions share a pool of names, in which operators get fresh
names and functions have the names that their authors chose. `Context.Callable`
is what a run keeps: the names in the pool are those of the operators that were
asked for and of the functions in the table, each of them once. So no two
callables have one name (`Call.callables_apart`), and a function is a duplicate
if and only if some callable has its name, be it a function or an operator
(`Call.duplicate_iff_callable`).
-/

namespace ModelExport

/-! ## Functions by name -/

/-- Where no two functions share a name, each is found under its own. -/
theorem Program.function?_eq_some_iff {p : Program} (h : (p.functions.map (·.name)).Nodup)
    {name : String} {f : Function} :
    p.function? name = some f ↔ f ∈ p.functions ∧ f.name = name := by
  constructor
  · intro hfound
    exact ⟨List.mem_of_find?_eq_some hfound, by simpa using List.find?_some hfound⟩
  · rintro ⟨hmem, rfl⟩
    cases hfound : p.function? f.name with
    | none => exact absurd (List.find?_eq_none.mp hfound f hmem) (by simp)
    | some g =>
        have hname : g.name = f.name := by simpa using List.find?_some hfound
        rw [List.inj_on_of_nodup_map h (List.mem_of_find?_eq_some hfound) hmem hname]

namespace Context

theorem hasFunction_iff (c : Context) (name : String) :
    c.hasFunction name = true ↔ name ∈ c.functions.map (·.name) := by
  simp [hasFunction]

/-! ## The invariant -/

/-- The names in the pool are those of the operators and of the functions in the
table, and each is taken once. -/
structure Callable (c : Context) (operators : List String) : Prop where
  names : c.operators.names.Perm (operators ++ c.functions.map (·.name))
  nodup : c.operators.names.Nodup
  ne_empty : "" ∉ c.operators.names

theorem callable_empty : Callable {} [] where
  names := .nil
  nodup := List.nodup_nil
  ne_empty := List.not_mem_nil

variable {c c' : Context} {operators : List String}

theorem Callable.of_same (h : c.Callable operators) (ho : c'.operators = c.operators)
    (hf : c'.functions = c.functions) : c'.Callable operators := by
  obtain ⟨hnames, hnodup, hne⟩ := h
  rw [← ho] at hnames hnodup hne
  exact ⟨hf ▸ hnames, hnodup, hne⟩

theorem Callable.taking (h : c.Callable operators) {stem : String} (hstem : stem ≠ "") :
    Callable { c with operators := c.operators.taking stem }
      (operators ++ [c.operators.pick stem]) where
  names := by
    rw [NamePool.names_taking, List.append_assoc]
    exact (h.names.cons _).trans List.perm_middle.symm
  nodup := List.nodup_cons.mpr ⟨c.operators.pick_not_mem stem, h.nodup⟩
  ne_empty hmem := by
    rcases List.mem_cons.mp hmem with heq | hmem
    · exact c.operators.pick_ne_empty hstem heq.symm
    · exact h.ne_empty hmem

theorem Callable.withFunction (h : c.Callable operators) {f : Function} (hname : f.name ≠ "")
    (hfree : f.name ∉ c.operators.names) : (c.withFunction f).Callable operators := by
  have hnames : (c.withFunction f).operators.names = f.name :: c.operators.names := by
    have htaken : ¬ c.operators.contains f.name = true := by rwa [NamePool.contains_iff]
    rw [Context.withFunction, NamePool.reserve, if_neg htaken]
  refine ⟨?_, ?_, ?_⟩
  · rw [hnames, Context.withFunction, List.map_append, ← List.append_assoc]
    exact (h.names.cons _).trans (List.perm_append_singleton _ _).symm
  · rw [hnames]
    exact List.nodup_cons.mpr ⟨hfree, h.nodup⟩
  · rw [hnames]
    exact List.not_mem_cons_of_ne_of_not_mem hname.symm h.ne_empty

theorem Callable.mem_iff (h : c.Callable operators) (name : String) :
    name ∈ c.operators.names ↔ name ∈ operators ∨ name ∈ c.functions.map (·.name) := by
  rw [h.names.mem_iff, List.mem_append]

end Context

namespace Call

/-! ## What calls obtain and add -/

/-- The name that the call obtained for an operator. -/
def operatorName? : Call → Except BuildError Answer → Option String
  | .operatorName _, .ok (.name name) => some name
  | _, _ => none

/-- The function that the call added. -/
def addedFunction? : Call → Except BuildError Answer → Option Function
  | .addFunction f, .ok _ => some f
  | _, _ => none

/-- The names that the calls obtained for operators by the answers they had, in
the order of the calls. -/
def operatorNames (calls : List Call) (answers : List (Except BuildError Answer)) : List String :=
  (calls.zip answers).filterMap fun e => operatorName? e.1 e.2

/-- The functions that the calls added by the answers they had, in the order of the calls. -/
def addedFunctions (calls : List Call) (answers : List (Except BuildError Answer)) :
    List Function :=
  (calls.zip answers).filterMap fun e => addedFunction? e.1 e.2

theorem operatorName?_error (call : Call) (e : BuildError) :
    operatorName? call (.error e) = none := by
  cases call <;> rfl

theorem addedFunction?_error (call : Call) (e : BuildError) :
    addedFunction? call (.error e) = none := by
  cases call <;> rfl

theorem obtains_nothing {call : Call} (h : call.takesOperator = false)
    (answer : Except BuildError Answer) :
    operatorName? call answer = none ∧ addedFunction? call answer = none := by
  cases call <;> first | exact ⟨rfl, rfl⟩ | cases h

/-! ## One call -/

section Step

variable {c c' : Context} {operators : List String} {call : Call}
  {answer : Except BuildError Answer}

/-- The calls that ask for an operator's name. All others leave operators and
functions as they are. -/
theorem Outcome.callable (ho : Outcome c call answer c') (hcall : call.takesOperator = true)
    (h : c.Callable operators) :
    c'.Callable (operators ++ (operatorName? call answer).toList)
      ∧ c'.functions = c.functions ++ (addedFunction? call answer).toList := by
  cases ho with
  | failed _ e =>
      rw [operatorName?_error, addedFunction?_error]
      simpa using h
  | operatorName hstem => exact ⟨h.taking hstem, (List.append_nil _).symm⟩
  | addFunction hname hf hfree =>
      exact ⟨by simpa [operatorName?] using h.withFunction hname hfree, rfl⟩
  | read hread => cases call <;> first | cases hread; done | cases hcall
  | _ => cases hcall

theorem step_callable (h : c.Callable operators) (call : Call) :
    (call.step c).2.Callable (operators ++ (operatorName? call (call.step c).1).toList)
      ∧ (call.step c).2.functions
        = c.functions ++ (addedFunction? call (call.step c).1).toList := by
  cases hcall : call.takesOperator with
  | true => exact (step_outcome call c).callable hcall h
  | false =>
      obtain ⟨hname, hadded⟩ := obtains_nothing hcall (call.step c).1
      have hsame : (call.step c).2 = (call.step c).2.withOperatorsOf c :=
        context_step_of_not_takesOperator hcall c c
      rw [hname, hadded, hsame, Option.toList_none, Option.toList_none, List.append_nil,
        List.append_nil]
      exact ⟨h.of_same rfl rfl, rfl⟩

/-- A function is added unless its name is empty or that of a callable. -/
theorem step_addFunction (h : c.Callable operators) {f : Function} (hname : f.name ≠ "") :
    step (.addFunction f) c
      = if f.name ∈ operators ∨ f.name ∈ c.functions.map (·.name) then
          (.error (.duplicateFunction f.name), c)
        else (.ok .done, c.withFunction f) := by
  have hduplicate : (c.hasFunction f.name = true ∨ c.operators.contains f.name = true)
      ↔ f.name ∈ operators ∨ f.name ∈ c.functions.map (·.name) := by
    rw [Context.hasFunction_iff, NamePool.contains_iff, h.mem_iff]
    tauto
  rw [step_eq, perform, bind_apply, Build.addFunction_apply, if_neg hname]
  by_cases hmem : f.name ∈ operators ∨ f.name ∈ c.functions.map (·.name)
  · rw [if_pos hmem, if_pos (hduplicate.mpr hmem)]
  · rw [if_neg hmem, if_neg (mt hduplicate.mp hmem)]
    rfl

end Step

/-! ## Runs -/

theorem run_callable {c : Context} {operators : List String} (h : c.Callable operators)
    (calls : List Call) :
    (run calls c).2.Callable (operators ++ operatorNames calls (run calls c).1)
      ∧ (run calls c).2.functions
        = c.functions ++ addedFunctions calls (run calls c).1 := by
  induction calls generalizing c operators with
  | nil => simpa [operatorNames, addedFunctions, run] using h
  | cons call calls ih =>
      obtain ⟨hstep, hadded⟩ := step_callable h call
      obtain ⟨hrun, hfunctions⟩ := ih hstep
      rw [operatorNames, addedFunctions, filterMap_run_cons, filterMap_run_cons,
        ← List.append_assoc, ← List.append_assoc, ← hadded]
      exact ⟨hrun, hfunctions⟩

theorem callable_of_run (calls : List Call) :
    (run calls {}).2.Callable (operatorNames calls (run calls {}).1)
      ∧ (run calls {}).2.functions = addedFunctions calls (run calls {}).1 :=
  run_callable Context.callable_empty calls

/-- Whatever is called, the names that operators obtained and the names of the
functions are different and not empty. The table holds the functions that were
added, each once and in order, and the model finds each of them under its name
and nothing else. A function that is refused leaves the whole context as it was. -/
theorem callables_apart (calls : List Call) :
    let answers := (run calls {}).1
    let c := (run calls {}).2
    let callables := operatorNames calls answers ++ c.functions.map (·.name)
    callables.Nodup ∧ "" ∉ callables
      ∧ c.functions = addedFunctions calls answers
      ∧ (∀ envelope name f, (c.assemble envelope).program.function? name = some f
          ↔ f ∈ addedFunctions calls answers ∧ f.name = name)
      ∧ ∀ f e, (step (.addFunction f) c).1 = .error e → (step (.addFunction f) c).2 = c := by
  intro answers c callables
  obtain ⟨hcallable, hfunctions⟩ := callable_of_run calls
  have hnodup : callables.Nodup := hcallable.names.nodup_iff.mp hcallable.nodup
  refine ⟨hnodup, fun hmem => ?_, hfunctions, fun envelope name f => ?_, fun f e hfailed => ?_⟩
  · exact hcallable.ne_empty (hcallable.names.mem_iff.mpr hmem)
  · rw [Program.function?_eq_some_iff (List.nodup_append.mp hnodup).2.1]
    show f ∈ c.functions ∧ f.name = name ↔ _
    rw [hfunctions]
  · rw [step_of_error hfailed]

/-- A function under a numbered operator name, the number that is skipped for it,
and a second function of the name, which is refused. -/
theorem callables_apart_numbered :
    let calls : List Call :=
      [.operatorName "clamp", .addFunction { name := "clamp1" }, .operatorName "clamp",
       .addFunction { name := "clamp1" }, .addFunction { name := "round" }]
    let c := (run calls {}).2
    operatorNames calls (run calls {}).1 = ["clamp", "clamp2"]
      ∧ c.functions.map (·.name) = ["clamp1", "round"]
      ∧ (operatorNames calls (run calls {}).1 ++ c.functions.map (·.name)).Nodup
      ∧ (step (.addFunction { name := "clamp2" }) c).1 = .error (.duplicateFunction "clamp2")
      ∧ (step (.addFunction { name := "clamp2" }) c).2 = c := by
  intro calls c
  obtain ⟨hnodup, -, -, -, hrefused⟩ := callables_apart calls
  have hduplicate : (step (.addFunction { name := "clamp2" }) c).1
      = .error (.duplicateFunction "clamp2") := by
    rw [step_addFunction (callable_of_run calls).1 (by decide), if_pos (by decide +kernel)]
  exact ⟨by decide +kernel, by decide +kernel, hnodup, hduplicate, hrefused _ _ hduplicate⟩

/-- A function with a name is refused as a duplicate if and only if there is a
function of the name, or an operator obtained it, and it is refused for no other
reason. So it is refused in particular right after an operator obtained its name. -/
theorem duplicate_iff_callable (calls : List Call) (f : Function) (h : f.name ≠ "") :
    let c := (run calls {}).2
    ((step (.addFunction f) c).1 = .error (.duplicateFunction f.name)
        ↔ f.name ∈ c.functions.map (·.name)
          ∨ f.name ∈ operatorNames calls (run calls {}).1)
      ∧ (∀ e, (step (.addFunction f) c).1 = .error e → e = .duplicateFunction f.name)
      ∧ ∀ stem, (step (.operatorName stem) c).1 = .ok (.name f.name) →
          (step (.addFunction f) (step (.operatorName stem) c).2).1
            = .error (.duplicateFunction f.name) := by
  intro c
  have hcallable := (callable_of_run calls).1
  refine ⟨?_, fun e hrefused => ?_, fun stem hobtained => ?_⟩
  · rw [step_addFunction hcallable h]
    split
    · next hmem => exact iff_of_true rfl hmem.symm
    · next hmem =>
        refine iff_of_false (fun hrefused => ?_) (mt Or.symm hmem)
        cases hrefused
  · rw [step_addFunction hcallable h] at hrefused
    split at hrefused
    · exact (Except.error.inj hrefused).symm
    · cases hrefused
  · have hafter := (step_callable hcallable (.operatorName stem)).1
    rw [hobtained] at hafter
    rw [step_addFunction hafter h, if_pos]
    exact .inl (List.mem_append_right _ (List.mem_singleton.mpr rfl))

/-- A numbered name that an operator just obtained. -/
theorem duplicate_iff_callable_numbered :
    let f : Function := { name := "f1" }
    let c := (run [.operatorName "f"] {}).2
    f.name ≠ "" ∧ (step (.operatorName "f") c).1 = .ok (.name "f1")
      ∧ (step (.addFunction f) c).1 ≠ .error (.duplicateFunction "f1")
      ∧ (step (.addFunction f) (step (.operatorName "f") c).2).1
          = .error (.duplicateFunction "f1") := by
  intro f c
  have hname : f.name ≠ "" := by decide
  have hfree : c.operators.pick "f" = "f1" := by decide +kernel
  have hobtained : (step (.operatorName "f") c).1 = .ok (.name "f1") := by
    rw [step_eq, perform, map_apply, Build.operatorName_apply, if_neg (by decide), ← hfree]
  obtain ⟨hiff, -, hafter⟩ := duplicate_iff_callable [.operatorName "f"] f hname
  refine ⟨hname, hobtained, mt hiff.mp ?_, hafter "f" hobtained⟩
  decide +kernel

/-- An operator's name is refused to a function although the table is empty. -/
theorem operator_name_refused :
    let f : Function := { name := "f" }
    let c := (run [.operatorName "f"] {}).2
    (run [.operatorName "f"] {}).1 = [.ok (.name "f")]
      ∧ c.functions = []
      ∧ (step (.addFunction f) c).1 = .error (.duplicateFunction "f")
      ∧ ¬ ∀ (calls : List Call) (f : Function), f.name ≠ "" →
          ((step (.addFunction f) (run calls {}).2).1 = .error (.duplicateFunction f.name)
            ↔ f.name ∈ (run calls {}).2.functions.map (·.name)) := by
  intro f c
  have hrefused : (step (.addFunction f) c).1 = .error (.duplicateFunction "f") := rfl
  refine ⟨rfl, rfl, hrefused, fun hclaim => ?_⟩
  exact absurd ((hclaim [.operatorName "f"] f (by decide)).mp hrefused) List.not_mem_nil

end Call

end ModelExport
