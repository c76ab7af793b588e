import ModelExport.Context.Call
import ModelExport.Proofs.Names.Scope

/-!
# The operations on a context in closed form

Every operation under three heads: when it fails and with which error,
what it answers otherwise, and the context that it then leaves
(`Build.addInput_apply` and its siblings). A failing operation leaves
the context as it was.

The contexts have names of their own (`Context.withInput` and the
others), so that proofs speak about what an operation adds and not about
how it goes about it.
-/

namespace ModelExport

/-! ## Sequencing -/

section Sequencing

variable {ε σ α β : Type} (c : σ)

theorem bind_apply (x : EStateM ε σ α) (f : α → EStateM ε σ β) :
    (x >>= f) c = match x c with
      | .ok a c => f a c
      | .error e c => .error e c := by
  show EStateM.bind x f c = _
  unfold EStateM.bind
  cases x c <;> rfl

theorem bind_eq_ok {x : EStateM ε σ α} {f : α → EStateM ε σ β} {c c'' : σ}
    {b : β} (h : (x >>= f) c = .ok b c'') : ∃ a c', x c = .ok a c' ∧ f a c' = .ok b c'' := by
  rw [bind_apply] at h
  cases hx : x c with
  | error e c' =>
      rw [hx] at h
      cases h
  | ok a c' =>
      rw [hx] at h
      exact ⟨a, c', rfl, h⟩

theorem map_apply (f : α → β) (x : EStateM ε σ α) :
    (f <$> x) c = match x c with
      | .ok a c => .ok (f a) c
      | .error e c => .error e c := by
  show EStateM.map f x c = _
  unfold EStateM.map
  cases x c <;> rfl

end Sequencing

/-! ## Contexts -/

namespace Context

@[simp] theorem scope_keepReference (c : Context) (name : String) :
    (c.keepReference name).scope = c.scope := by
  unfold keepReference
  split <;> rfl

@[simp] theorem operators_keepReference (c : Context) (name : String) :
    (c.keepReference name).operators = c.operators := by
  unfold keepReference
  split <;> rfl

@[simp] theorem inputs_keepReference (c : Context) (name : String) :
    (c.keepReference name).inputs = c.inputs := by
  unfold keepReference
  split <;> rfl

@[simp] theorem outputs_keepReference (c : Context) (name : String) :
    (c.keepReference name).outputs = c.outputs := by
  unfold keepReference
  split <;> rfl

@[simp] theorem body_keepReference (c : Context) (name : String) :
    (c.keepReference name).body = c.body := by
  unfold keepReference
  split <;> rfl

@[simp] theorem functions_keepReference (c : Context) (name : String) :
    (c.keepReference name).functions = c.functions := by
  unfold keepReference
  split <;> rfl

@[simp] theorem types_keepReference (c : Context) (name : String) :
    (c.keepReference name).types = c.types := by
  unfold keepReference
  split <;> rfl

@[simp] theorem definitions_keepReference (c : Context) (name : String) :
    (c.keepReference name).definitions = c.definitions := by
  unfold keepReference
  split <;> rfl

theorem variableOf?_of_binding {c c' : Context} {column name : String}
    (h : c'.scope.bindings = (column, name) :: c.scope.bindings) (other : String) :
    c'.variableOf? other = if other = column then some name else c.variableOf? other :=
  Scope.lookup?_of_binding h other

theorem variableOf?_of_same {c c' : Context} (h : c'.scope.bindings = c.scope.bindings)
    (column : String) : c'.variableOf? column = c.variableOf? column :=
  Scope.lookup?_of_same h column

/-- The variable name that the stem gives next. -/
def fresh (c : Context) (stem : String) : String := c.scope.pool.pick stem

theorem fresh_not_mem (c : Context) (stem : String) : c.fresh stem ∉ c.scope.pool.names :=
  NamePool.pick_not_mem c.scope.pool stem

theorem fresh_ne_empty (c : Context) {stem : String} (h : stem ≠ "") : c.fresh stem ≠ "" :=
  NamePool.pick_ne_empty c.scope.pool h

/-- With a new variable. -/
def withVariable (c : Context) (stem : String) : Context :=
  ({ c with scope := c.scope.taking stem } : Context).keepReference (c.fresh stem)

/-- With a new variable that holds the column. -/
def withColumn (c : Context) (column : String) : Context :=
  ({ c with scope := (c.scope.taking column).binding column (c.fresh column) }
    : Context).keepReference (c.fresh column)

/-- With a new variable of the type that holds the column. -/
def withIntermediate (c : Context) (column : String) (type : Descriptor) : Context :=
  ({ c with
      scope := (c.scope.taking column).binding column (c.fresh column)
      types := c.types.insert (c.fresh column) type } : Context).keepReference (c.fresh column)

/-- With a new input that holds the column. -/
def withInput (c : Context) (column : String) (type : Descriptor) : Context :=
  ({ c with
      scope := (c.scope.taking column).binding column (c.fresh column)
      types := c.types.insert (c.fresh column) type
      inputs := c.inputs ++ [{ name := c.fresh column, type }] }
    : Context).keepReference (c.fresh column)

/-- With a new output that is assigned from the variable. -/
def withOutput (c : Context) (column source : String) (type : Descriptor) : Context :=
  ({ c with
      scope := c.scope.taking column
      types := c.types.insert (c.fresh column) type
      outputs := c.outputs ++ [{ name := c.fresh column, type }]
      body := c.body ++ [.assign (c.fresh column) (.variable source)] }
    : Context).keepReference (c.fresh column)

/-- With a literal under the name. -/
def withLiteral (c : Context) (value : Value) (name : Option String) : Context :=
  let claimed := c.scope.claiming "const" name
  ({ c with
      scope := claimed.2
      body := c.body ++ [c.statementFor claimed.1 (.literal value)]
      definitions := (claimed.1, .literal value) :: c.definitions }
    : Context).keepReference claimed.1

/-- With an element of a container under the name. -/
def withElement (c : Context) (element : Expr) (name : Option String) : Context :=
  let claimed := c.scope.claiming "elem" name
  ({ c with
      scope := claimed.2
      body := c.body ++ [.bindOne claimed.1 element] } : Context).keepReference claimed.1

def withFunction (c : Context) (f : Function) : Context :=
  { c with operators := (c.operators.reserve f.name).2, functions := c.functions ++ [f] }

end Context

/-! ## Operations in closed form -/

namespace Build

variable (c : Context)

theorem checkColumn_apply (column : String) :
    checkColumn column c = if column = "" then .error (.argument .emptyColumn) c else .ok () c := by
  unfold checkColumn
  split <;> rfl

theorem descriptor_apply (type : ColumnType) :
    descriptor type c = match type.descriptor? with
      | none => .error (.noElementKind type.rawKind) c
      | some d => .ok d c := by
  unfold descriptor
  cases type.descriptor? <;> rfl

theorem freshVariable_apply (stem : String) :
    freshVariable stem c = if stem = "" then .error (.argument .emptyStem) c
      else .ok (c.fresh stem) { c with scope := c.scope.taking stem } := by
  by_cases h : stem = ""
  · subst h
    rfl
  · simp only [freshVariable, onVariables, Scope.fresh_eq _ h, if_neg h]
    rfl

theorem allocateColumn_apply {column : String} (h : column ≠ "") :
    allocateColumn column c = .ok (c.fresh column)
      { c with scope := (c.scope.taking column).binding column (c.fresh column) } := by
  simp only [allocateColumn, onVariables, Scope.allocate_eq _ h]
  rfl

theorem claim_apply (name : Option String) {stem : String} (h : stem ≠ "") :
    claim name stem c = if name = some "" then .error (.argument .emptyVariable) c
      else .ok (c.scope.claiming stem name).1
        { c with scope := (c.scope.claiming stem name).2 } := by
  cases name with
  | none => simp only [claim, freshVariable_apply, if_neg h, reduceCtorEq, if_false]; rfl
  | some name =>
      by_cases hempty : name = ""
      · subst hempty
        rfl
      · simp only [claim, if_neg hempty, Option.some.injEq]
        rfl

theorem declareRef_apply (stem : String) :
    declareRef stem c = if stem = "" then .error (.argument .emptyStem) c
      else .ok (c.fresh stem) (c.withVariable stem) := by
  rw [declareRef, bind_apply, freshVariable_apply]
  by_cases h : stem = ""
  · rw [if_pos h, if_pos h]
  · rw [if_neg h, if_neg h]
    rfl

theorem operatorName_apply (stem : String) :
    operatorName stem c = if stem = "" then .error (.argument .emptyStem) c
      else .ok (c.operators.pick stem) { c with operators := c.operators.taking stem } := by
  by_cases h : stem = ""
  · subst h
    rfl
  · simp only [operatorName, onOperators, NamePool.allocate_eq _ h, if_neg h]

theorem variableName_apply (column : String) :
    variableName column c = match c.variableOf? column with
      | some name => .ok name c
      | none => .error (.undefinedColumn column) c := by
  unfold variableName
  rw [bind_apply]
  show (match c.variableOf? column with
    | some name => (pure name : Build String)
    | none => throw (BuildError.undefinedColumn column)) c = _
  cases c.variableOf? column <;> rfl

theorem lookupOrAllocate_apply (column : String) :
    lookupOrAllocate column c = if column = "" then .error (.argument .emptyColumn) c
      else match c.variableOf? column with
        | some name => .ok name (c.keepReference name)
        | none => .ok (c.fresh column) (c.withColumn column) := by
  rw [lookupOrAllocate, bind_apply, checkColumn_apply]
  by_cases h : column = ""
  · rw [if_pos h, if_pos h]
  · rw [if_neg h, if_neg h]
    cases hb : c.variableOf? column with
    | some name =>
        simp only [bind_apply, onVariables, Scope.lookupOrAllocate,
          show c.scope.lookup? column = some name from hb]
        rfl
    | none =>
        simp only [bind_apply, onVariables, Scope.lookupOrAllocate,
          show c.scope.lookup? column = none from hb, Scope.allocate_eq _ h]
        rfl

theorem bindColumn_apply (column name : String) :
    bindColumn column name c = if column = "" then .error (.argument .emptyColumn) c
      else if c.scope.contains name then .ok () { c with scope := c.scope.binding column name }
      else .error (.argument (.unallocated column name)) c := by
  rw [bindColumn, bind_apply, checkColumn_apply]
  by_cases h : column = ""
  · rw [if_pos h, if_pos h]
  · rw [if_neg h, if_neg h]
    by_cases hn : c.scope.contains name = true
    · simp only [onVariables, Scope.bind, if_pos hn]
      rfl
    · simp only [onVariables, Scope.bind, if_neg hn]
      rfl

theorem addIntermediate_apply (type : ColumnType) (column : String) :
    addIntermediate type column c = if column = "" then .error (.argument .emptyColumn) c
      else match type.descriptor? with
        | none => .error (.noElementKind type.rawKind) c
        | some d => .ok (c.fresh column) (c.withIntermediate column d) := by
  rw [addIntermediate, bind_apply, checkColumn_apply]
  by_cases h : column = ""
  · rw [if_pos h, if_pos h]
  · rw [if_neg h, if_neg h]
    simp only [bind_apply, descriptor_apply]
    cases type.descriptor? with
    | none => rfl
    | some d =>
        simp only [allocateColumn_apply c h]
        rfl

theorem addInput_apply (type : ColumnType) (column : String) :
    addInput type column c = if column = "" then .error (.argument .emptyColumn) c
      else match type.descriptor? with
        | none => .error (.noElementKind type.rawKind) c
        | some d => .ok (c.fresh column) (c.withInput column d) := by
  rw [addInput, bind_apply, checkColumn_apply]
  by_cases h : column = ""
  · rw [if_pos h, if_pos h]
  · rw [if_neg h, if_neg h]
    simp only [bind_apply, descriptor_apply]
    cases type.descriptor? with
    | none => rfl
    | some d =>
        simp only [allocateColumn_apply c h]
        rfl

theorem addOutput_apply (type : ColumnType) (column : String) :
    addOutput type column c = if column = "" then .error (.argument .emptyColumn) c
      else match c.variableOf? column, type.descriptor? with
        | none, _ => .error (.undefinedColumn column) c
        | some _, none => .error (.noElementKind type.rawKind) c
        | some source, some d => .ok (c.fresh column) (c.withOutput column source d) := by
  rw [addOutput, bind_apply, checkColumn_apply]
  by_cases h : column = ""
  · rw [if_pos h, if_pos h]
  · rw [if_neg h, if_neg h]
    simp only [bind_apply, variableName_apply]
    cases c.variableOf? column with
    | none => rfl
    | some source =>
        simp only [descriptor_apply]
        cases type.descriptor? with
        | none => rfl
        | some d =>
            simp only [freshVariable_apply, if_neg h]
            rfl

theorem declare_apply (value : Value) (name : Option String) :
    declare value name c = if name = some "" then .error (.argument .emptyVariable) c
      else .ok (c.scope.claiming "const" name).1 (c.withLiteral value name) := by
  rw [declare, bind_apply, claim_apply c name (by decide)]
  by_cases h : name = some ""
  · rw [if_pos h, if_pos h]
  · rw [if_neg h, if_neg h]
    rfl

theorem access_apply (container : Expr) (path : List Expr) (fallback : Option Expr)
    (name : Option String) :
    access container path fallback name c = if path.isEmpty then .error (.value .emptyPath) c
      else if name = some "" then .error (.argument .emptyVariable) c
      else .ok (c.scope.claiming "elem" name).1
        (c.withElement (.access container path fallback) name) := by
  unfold access Expr.accessAt
  by_cases h : path.isEmpty = true
  · simp only [if_pos h]
    rfl
  · rw [if_neg h, if_neg h]
    show (claim name "elem" >>= _) c = _
    rw [bind_apply, claim_apply c name (by decide)]
    by_cases hname : name = some ""
    · rw [if_pos hname, if_pos hname]
    · rw [if_neg hname, if_neg hname]
      rfl

theorem addFunction_apply (f : Function) :
    addFunction f c = if f.name = "" then .error (.argument .emptyFunction) c
      else if c.hasFunction f.name ∨ c.operators.contains f.name then
        .error (.duplicateFunction f.name) c
      else .ok () (c.withFunction f) := by
  unfold addFunction
  split
  · rfl
  · show (if c.hasFunction f.name ∨ c.operators.contains f.name then
      throw (BuildError.duplicateFunction f.name) else set (c.withFunction f) : Build Unit) c = _
    split <;> rfl

end Build

end ModelExport
