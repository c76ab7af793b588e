import ModelExport.Proofs.Context.Outcome

/-!
# Operators and variables apart

A context holds two things that know nothing of each other: the names of
operators with the functions that have such names, and all the rest. A call is
about one of them. It answers by what it finds there and leaves the other as
it is, and so a run is two runs side by side, however their calls alternate
(`Call.namespaces_apart`).

The two halves are put together by `Context.withOperatorsOf`. That a call looks
at one half only is an equation: put into a context with another second half,
it does the same and keeps that half (`Commutes`). The equation is closed under
sequencing, so it is proved once for each primitive step.
-/

namespace ModelExport

/-! ## Two halves of a context -/

/-- The context with the operators and functions of the other one. -/
def Context.withOperatorsOf (c d : Context) : Context :=
  { c with operators := d.operators, functions := d.functions }

/-- A result with another context. -/
def placed {ε α : Type} (f : Context → Context) :
    EStateM.Result ε Context α → EStateM.Result ε Context α
  | .ok a c => .ok a (f c)
  | .error e c => .error e (f c)

/-- The contribution does in the changed context what it does in the context itself. -/
def Commutes {ε α : Type} (f : Context → Context) (x : EStateM ε Context α) : Prop :=
  ∀ c, x (f c) = placed f (x c)

section Commutes

variable {ε α β : Type} {f : Context → Context}

theorem commutes_pure (a : α) : Commutes f (pure a : EStateM ε Context α) := fun _ => rfl

theorem commutes_throw (e : ε) : Commutes f (throw e : EStateM ε Context α) := fun _ => rfl

theorem Commutes.bind {x : EStateM ε Context α} {k : α → EStateM ε Context β} (hx : Commutes f x)
    (hk : ∀ a, Commutes f (k a)) : Commutes f (x >>= k) := by
  intro c
  rw [bind_apply, bind_apply, hx c]
  cases x c with
  | ok a c' => exact hk a c'
  | error e c' => rfl

theorem Commutes.map {x : EStateM ε Context α} (hx : Commutes f x) (g : α → β) :
    Commutes f (g <$> x) := by
  intro c
  rw [map_apply, map_apply, hx c]
  cases x c <;> rfl

theorem commutes_modify {g : Context → Context} (h : ∀ c, g (f c) = f (g c)) :
    Commutes f (modify g : EStateM ε Context PUnit) := by
  intro c
  show EStateM.Result.ok PUnit.unit (g (f c)) = EStateM.Result.ok PUnit.unit (f (g c))
  rw [h]

/-- Reading what the change leaves alone. -/
theorem commutes_get_bind {k : Context → EStateM ε Context α} (hk : ∀ c, k (f c) = k c)
    (h : ∀ c, Commutes f (k c)) : Commutes f (get >>= k) := by
  intro c
  show k (f c) (f c) = placed f (k c c)
  rw [hk, h c c]

end Commutes

/-! ## Contributions about variables -/

/-- The contribution looks neither at operators nor at functions, and keeps them. -/
def Build.AboutVariables {α : Type} (b : Build α) : Prop :=
  ∀ d, Commutes (·.withOperatorsOf d) b

namespace Build

variable {α β : Type}

theorem AboutVariables.bind {b : Build α} {k : α → Build β} (hb : b.AboutVariables)
    (hk : ∀ a, (k a).AboutVariables) : AboutVariables (b >>= k) :=
  fun d => (hb d).bind fun a => hk a d

theorem AboutVariables.map {b : Build α} (hb : b.AboutVariables) (g : α → β) :
    AboutVariables (g <$> b) :=
  fun d => (hb d).map g

theorem aboutVariables_pure (a : α) : AboutVariables (pure a : Build α) :=
  fun _ => commutes_pure a

theorem aboutVariables_throw (e : BuildError) : AboutVariables (throw e : Build α) :=
  fun _ => commutes_throw e

theorem aboutVariables_modify {g : Context → Context}
    (h : ∀ c d, g (c.withOperatorsOf d) = (g c).withOperatorsOf d) :
    AboutVariables (modify g : Build PUnit) :=
  fun d => commutes_modify fun c => h c d

theorem aboutVariables_get_bind {k : Context → Build α}
    (hk : ∀ c d, k (c.withOperatorsOf d) = k c) (h : ∀ c, (k c).AboutVariables) :
    AboutVariables (get >>= k) :=
  fun d => commutes_get_bind (fun c => hk c d) fun c => h c d

/-! ### Steps -/

theorem aboutVariables_onVariables (f : Scope → Except ArgumentError (α × Scope)) :
    AboutVariables (onVariables f) := by
  intro d c
  simp only [onVariables, Context.withOperatorsOf]
  cases f c.scope <;> rfl

theorem aboutVariables_checkColumn (column : String) : AboutVariables (checkColumn column) := by
  unfold checkColumn
  split
  · exact aboutVariables_throw _
  · exact aboutVariables_pure _

theorem aboutVariables_descriptor (type : ColumnType) : AboutVariables (descriptor type) := by
  unfold descriptor
  split
  · exact aboutVariables_pure _
  · exact aboutVariables_throw _

theorem aboutVariables_keepReference (name : String) : AboutVariables (keepReference name) := by
  refine aboutVariables_modify fun c d => ?_
  unfold Context.keepReference
  show (if (c.reference? name).isSome then _ else _) = _
  split <;> rfl

theorem aboutVariables_claim (name : Option String) (stem : String) :
    AboutVariables (claim name stem) := by
  unfold claim
  split
  · exact aboutVariables_onVariables _
  · split
    · exact aboutVariables_throw _
    · exact (aboutVariables_modify fun _ _ => rfl).bind fun _ => aboutVariables_pure _

theorem aboutVariables_variableName (column : String) : AboutVariables (variableName column) := by
  refine aboutVariables_get_bind (fun _ _ => rfl) fun c => ?_
  split
  · exact aboutVariables_pure _
  · exact aboutVariables_throw _

/-- A name that was taken is kept and answered. -/
theorem AboutVariables.keeping {b : Build String} (hb : b.AboutVariables) :
    AboutVariables (do let name ← b; keepReference name; return name) :=
  hb.bind fun name => (aboutVariables_keepReference name).bind fun _ => aboutVariables_pure name

/-! ### Operations -/

theorem aboutVariables_lookupOrAllocate (column : String) :
    AboutVariables (lookupOrAllocate column) :=
  (aboutVariables_checkColumn column).bind fun _ => (aboutVariables_onVariables _).keeping

theorem aboutVariables_bindColumn (column name : String) :
    AboutVariables (bindColumn column name) :=
  (aboutVariables_checkColumn column).bind fun _ => aboutVariables_onVariables _

theorem aboutVariables_addIntermediate (type : ColumnType) (column : String) :
    AboutVariables (addIntermediate type column) := by
  refine (aboutVariables_checkColumn column).bind fun _ => ?_
  refine (aboutVariables_descriptor type).bind fun d => ?_
  refine (aboutVariables_onVariables _).bind fun name => ?_
  refine (aboutVariables_modify fun _ _ => rfl).bind fun _ => ?_
  exact (aboutVariables_keepReference name).bind fun _ => aboutVariables_pure name

theorem aboutVariables_addInput (type : ColumnType) (column : String) :
    AboutVariables (addInput type column) := by
  refine (aboutVariables_checkColumn column).bind fun _ => ?_
  refine (aboutVariables_descriptor type).bind fun d => ?_
  refine (aboutVariables_onVariables _).bind fun name => ?_
  refine (aboutVariables_modify fun _ _ => rfl).bind fun _ => ?_
  refine (aboutVariables_modify fun _ _ => rfl).bind fun _ => ?_
  exact (aboutVariables_keepReference name).bind fun _ => aboutVariables_pure name

theorem aboutVariables_addOutput (type : ColumnType) (column : String) :
    AboutVariables (addOutput type column) := by
  refine (aboutVariables_checkColumn column).bind fun _ => ?_
  refine (aboutVariables_variableName column).bind fun source => ?_
  refine (aboutVariables_descriptor type).bind fun d => ?_
  refine (aboutVariables_onVariables _).bind fun name => ?_
  refine (aboutVariables_modify fun _ _ => rfl).bind fun _ => ?_
  refine (aboutVariables_modify fun _ _ => rfl).bind fun _ => ?_
  refine (aboutVariables_modify fun _ _ => rfl).bind fun _ => ?_
  exact (aboutVariables_keepReference name).bind fun _ => aboutVariables_pure name

theorem aboutVariables_declare (value : Value) (name : Option String) :
    AboutVariables (declare value name) := by
  refine (aboutVariables_claim name _).bind fun name => ?_
  refine aboutVariables_get_bind (fun _ _ => rfl) fun c => ?_
  refine (aboutVariables_modify fun _ _ => rfl).bind fun _ => ?_
  refine (aboutVariables_modify fun _ _ => rfl).bind fun _ => ?_
  exact (aboutVariables_keepReference name).bind fun _ => aboutVariables_pure name

theorem aboutVariables_access (container : Expr) (path : List Expr) (fallback : Option Expr)
    (name : Option String) : AboutVariables (access container path fallback name) := by
  unfold access
  split
  · exact aboutVariables_throw _
  · refine (aboutVariables_claim name _).bind fun name => ?_
    refine (aboutVariables_modify fun _ _ => rfl).bind fun _ => ?_
    exact (aboutVariables_keepReference name).bind fun _ => aboutVariables_pure name

/-! ## Contributions about operators -/

/-- The contribution looks at nothing but operators and functions, and keeps all else. -/
def AboutOperators (b : Build α) : Prop := ∀ c : Context, Commutes c.withOperatorsOf b

theorem aboutOperators_onOperators (f : NamePool → Except ArgumentError (α × NamePool)) :
    AboutOperators (onOperators f) := by
  intro c d
  simp only [onOperators, Context.withOperatorsOf]
  cases f d.operators <;> rfl

theorem aboutOperators_addFunction (f : Function) : AboutOperators (addFunction f) := by
  intro c d
  rw [addFunction_apply, addFunction_apply]
  split
  · rfl
  · show (if d.hasFunction f.name ∨ d.operators.contains f.name then _ else _) = _
    split <;> rfl

end Build

namespace Call

/-! ## One call -/

/-- Whether the call asks for a name in the namespace of operators and functions. -/
def takesOperator : Call → Bool
  | .operatorName _ | .addFunction _ => true
  | _ => false

/-- Whether the call has to do with variables. The table of functions is read without. -/
def aboutVariables : Call → Bool
  | .operatorName _ | .addFunction _ | .functions => false
  | _ => true

theorem aboutOperators_perform {call : Call} (h : call.takesOperator = true) :
    call.perform.AboutOperators := by
  cases call with
  | operatorName stem => exact fun c => (Build.aboutOperators_onOperators _ c).map _
  | addFunction f =>
      exact fun c => (Build.aboutOperators_addFunction f c).bind fun _ => commutes_pure _
  | _ => cases h

theorem aboutVariables_perform {call : Call} (h : call.aboutVariables = true) :
    call.perform.AboutVariables := by
  cases call with
  | operatorName _ | addFunction _ | functions => cases h
  | declareRef stem => exact (Build.aboutVariables_onVariables _).keeping.map _
  | variableName column => exact (Build.aboutVariables_variableName column).map _
  | lookupOrAllocate column => exact (Build.aboutVariables_lookupOrAllocate column).map _
  | addIntermediate type column => exact (Build.aboutVariables_addIntermediate type column).map _
  | addInput type column => exact (Build.aboutVariables_addInput type column).map _
  | addOutput type column => exact (Build.aboutVariables_addOutput type column).map _
  | declare value name => exact (Build.aboutVariables_declare value name).map _
  | access container path fallback name =>
      exact (Build.aboutVariables_access container path fallback name).map _
  | bindColumn column name =>
      exact (Build.aboutVariables_bindColumn column name).bind fun _ =>
        Build.aboutVariables_pure _
  | addExpr _ | addExprs _ =>
      exact (Build.aboutVariables_modify fun _ _ => rfl).bind fun _ => Build.aboutVariables_pure _
  | reference _ | definition _ | containsColumn _ | isOutput _ | inputs | outputs | body | types =>
      exact Build.aboutVariables_get_bind (fun _ _ => rfl) fun _ => Build.aboutVariables_pure _

theorem step_of_commutes {f : Context → Context} {call : Call} (h : Commutes f call.perform)
    (c : Context) : call.step (f c) = ((call.step c).1, f (call.step c).2) := by
  rw [step_eq, step_eq, h c]
  cases call.perform c <;> rfl

theorem step_of_takesOperator {call : Call} (h : call.takesOperator = true) (c d : Context) :
    call.step (c.withOperatorsOf d) = ((call.step d).1, c.withOperatorsOf (call.step d).2) :=
  step_of_commutes (aboutOperators_perform h c) d

theorem step_of_aboutVariables {call : Call} (h : call.aboutVariables = true) (c d : Context) :
    call.step (c.withOperatorsOf d) = ((call.step c).1, (call.step c).2.withOperatorsOf d) :=
  step_of_commutes (aboutVariables_perform h d) c

/-- A call that asks for no operator leaves the operators as they are, and
leaves behind what it leaves behind without them. -/
theorem context_step_of_not_takesOperator {call : Call} (h : call.takesOperator = false)
    (c d : Context) :
    (call.step (c.withOperatorsOf d)).2 = (call.step c).2.withOperatorsOf d := by
  by_cases hv : call.aboutVariables = true
  · rw [step_of_aboutVariables hv]
  -- What is left is the table of functions, which is only read.
  · cases call <;> first | cases h; done | exact absurd rfl hv | rfl

/-! ## Runs -/

/-- The calls that ask for an operator's name, in their order. -/
def operatorCalls (calls : List Call) : List Call := calls.filter takesOperator

/-- The calls that do not, in their order. -/
def otherCalls (calls : List Call) : List Call := calls.filter fun call => !call.takesOperator

/-- The answers to those of the calls that are asked for, in the order of the calls. -/
def answersTo (asked : Call → Bool) (calls : List Call)
    (answers : List (Except BuildError Answer)) : List (Except BuildError Answer) :=
  ((calls.zip answers).filter fun e => asked e.1).map (·.2)

theorem operatorCalls_cons_of_pos {call : Call} (h : call.takesOperator = true)
    (calls : List Call) : operatorCalls (call :: calls) = call :: operatorCalls calls :=
  List.filter_cons_of_pos h

theorem operatorCalls_cons_of_neg {call : Call} (h : call.takesOperator = false)
    (calls : List Call) : operatorCalls (call :: calls) = operatorCalls calls :=
  List.filter_cons_of_neg (by simp [h])

theorem otherCalls_cons_of_pos {call : Call} (h : call.takesOperator = true)
    (calls : List Call) : otherCalls (call :: calls) = otherCalls calls :=
  List.filter_cons_of_neg (by simp [h])

theorem otherCalls_cons_of_neg {call : Call} (h : call.takesOperator = false)
    (calls : List Call) : otherCalls (call :: calls) = call :: otherCalls calls :=
  List.filter_cons_of_pos (by simp [h])

theorem answersTo_run_cons (asked : Call → Bool) (call : Call) (calls : List Call) (c : Context) :
    answersTo asked (call :: calls) (run (call :: calls) c).1 =
      (if asked call then [(call.step c).1] else [])
        ++ answersTo asked calls (run calls (call.step c).2).1 := by
  rw [run_cons, answersTo, List.zip_cons_cons, List.filter_cons]
  split <;> rfl

/-- A run on a context put together from two is a run on each. -/
theorem context_run_withOperatorsOf (calls : List Call) (c d : Context) :
    (run calls (c.withOperatorsOf d)).2 =
      (run (otherCalls calls) c).2.withOperatorsOf (run (operatorCalls calls) d).2 := by
  induction calls generalizing c d with
  | nil => rfl
  | cons call calls ih =>
      cases h : call.takesOperator with
      | true =>
          rw [run_cons, step_of_takesOperator h, ih, operatorCalls_cons_of_pos h,
            otherCalls_cons_of_pos h, run_cons]
      | false =>
          rw [run_cons, context_step_of_not_takesOperator h, ih, operatorCalls_cons_of_neg h,
            otherCalls_cons_of_neg h, run_cons]

theorem answersTo_takesOperator_run (calls : List Call) (c d : Context) :
    answersTo takesOperator calls (run calls (c.withOperatorsOf d)).1 =
      (run (operatorCalls calls) d).1 := by
  induction calls generalizing c d with
  | nil => rfl
  | cons call calls ih =>
      rw [answersTo_run_cons]
      cases h : call.takesOperator with
      | true =>
          rw [step_of_takesOperator h, ih, operatorCalls_cons_of_pos h, run_cons]
          rfl
      | false =>
          rw [context_step_of_not_takesOperator h, ih, operatorCalls_cons_of_neg h]
          rfl

theorem not_takesOperator_of_aboutVariables {call : Call} (h : call.aboutVariables = true) :
    call.takesOperator = false := by
  cases call <;> first | rfl | cases h

theorem answersTo_aboutVariables_run (calls : List Call) (c d : Context) :
    answersTo aboutVariables calls (run calls (c.withOperatorsOf d)).1 =
      answersTo aboutVariables (otherCalls calls) (run (otherCalls calls) c).1 := by
  induction calls generalizing c d with
  | nil => rfl
  | cons call calls ih =>
      rw [answersTo_run_cons]
      cases h : call.takesOperator with
      | true =>
          have hv : ¬ call.aboutVariables = true := fun hv => by
            rw [not_takesOperator_of_aboutVariables hv] at h
            cases h
          rw [if_neg hv, step_of_takesOperator h, ih, otherCalls_cons_of_pos h]
          rfl
      | false =>
          rw [context_step_of_not_takesOperator h, ih, otherCalls_cons_of_neg h,
            answersTo_run_cons]
          congr 1
          split
          · next hv => rw [step_of_aboutVariables hv]
          · rfl

/-- The table of functions, read at any moment, is that of the calls so far
that ask for operators. -/
theorem functions_read (calls : List Call) :
    (step .functions (run calls {}).2).1 =
      .ok (.functions (run (operatorCalls calls) {}).2.functions) := by
  have h : (run calls {}).2 = _ := context_run_withOperatorsOf calls {} {}
  show Except.ok (Answer.functions (run calls {}).2.functions) = _
  rw [h]
  rfl

/-- Names of operators and names of variables do not influence each other. What
the calls for operators answer is what they answer when nothing else is called,
and the other calls answer and leave behind what they do without them. Only the
table of functions, which is read by one of the others, is that of the calls for
operators. So the model depends on the two sequences and not on how they alternate. -/
theorem namespaces_apart (calls : List Call) :
    answersTo takesOperator calls (run calls {}).1 = (run (operatorCalls calls) {}).1
    ∧ answersTo aboutVariables calls (run calls {}).1 =
        answersTo aboutVariables (otherCalls calls) (run (otherCalls calls) {}).1
    ∧ (∀ before after, calls = before ++ .functions :: after →
        (run calls {}).1 = (run before {}).1
          ++ .ok (.functions (run (operatorCalls before) {}).2.functions)
          :: (run after (run before {}).2).1)
    ∧ (run calls {}).2 =
        (run (otherCalls calls) {}).2.withOperatorsOf (run (operatorCalls calls) {}).2
    ∧ ∀ interleaved, operatorCalls interleaved = operatorCalls calls →
        otherCalls interleaved = otherCalls calls →
        ∀ envelope,
          (run interleaved {}).2.assemble envelope = (run calls {}).2.assemble envelope := by
  refine ⟨answersTo_takesOperator_run calls {} {}, answersTo_aboutVariables_run calls {} {}, ?_,
    context_run_withOperatorsOf calls {} {}, ?_⟩
  · rintro before after rfl
    rw [run_append, run_cons, functions_read]
    rfl
  · intro interleaved hoperators hothers envelope
    have hcontext : (run interleaved {}).2 = (run calls {}).2 := by
      calc (run interleaved {}).2
          = (run (otherCalls interleaved) {}).2.withOperatorsOf
              (run (operatorCalls interleaved) {}).2 :=
            context_run_withOperatorsOf interleaved {} {}
        _ = (run (otherCalls calls) {}).2.withOperatorsOf (run (operatorCalls calls) {}).2 := by
            rw [hoperators, hothers]
        _ = (run calls {}).2 := (context_run_withOperatorsOf calls {} {}).symm
    rw [hcontext]

end Call

end ModelExport
