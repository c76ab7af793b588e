import ModelExport.Proofs.Context.Operation

/-!
# What a call can do

`Call.Outcome` lists the ways in which a call can end: it fails or reads
and the context stays as it is, or it succeeds under the stated guards
with the stated answer and context. `Call.step_outcome` says that there
are no others. A property of all runs is then a property of each
outcome, and no later proof opens an operation.

A run is a sequence of such steps. `Context.Reaches` relates the contexts
before and after a run, and `ByCalls` says of a contribution that it
works through the operations: whatever it does to a context, some calls
do.
-/

namespace ModelExport

namespace Call

/-! ## Outcomes of one call -/

/-- Whether the call only reads. -/
def isRead : Call → Bool
  | .variableName _ | .reference _ | .definition _ | .containsColumn _ | .isOutput _ => true
  | .inputs | .outputs | .body | .functions | .types => true
  | _ => false

/-- How a call on the context can end: with which answer, and in which context. -/
inductive Outcome (c : Context) : Call → Except BuildError Answer → Context → Prop
  | failed (call : Call) (e : BuildError) : Outcome c call (.error e) c
  | read {call : Call} (h : call.isRead = true) (answer : Answer) : Outcome c call (.ok answer) c
  | declareRef {stem : String} (h : stem ≠ "") :
      Outcome c (.declareRef stem) (.ok (.name (c.fresh stem))) (c.withVariable stem)
  | operatorName {stem : String} (h : stem ≠ "") :
      Outcome c (.operatorName stem) (.ok (.name (c.operators.pick stem)))
        { c with operators := c.operators.taking stem }
  | lookup {column name : String} (h : column ≠ "") (hb : c.variableOf? column = some name) :
      Outcome c (.lookupOrAllocate column) (.ok (.name name)) (c.keepReference name)
  | allocate {column : String} (h : column ≠ "") (hb : c.variableOf? column = none) :
      Outcome c (.lookupOrAllocate column) (.ok (.name (c.fresh column))) (c.withColumn column)
  | addIntermediate {type : ColumnType} {column : String} {d : Descriptor} (h : column ≠ "")
      (hd : type.descriptor? = some d) :
      Outcome c (.addIntermediate type column) (.ok (.name (c.fresh column)))
        (c.withIntermediate column d)
  | addInput {type : ColumnType} {column : String} {d : Descriptor} (h : column ≠ "")
      (hd : type.descriptor? = some d) :
      Outcome c (.addInput type column) (.ok (.name (c.fresh column))) (c.withInput column d)
  | addOutput {type : ColumnType} {column source : String} {d : Descriptor} (h : column ≠ "")
      (hb : c.variableOf? column = some source) (hd : type.descriptor? = some d) :
      Outcome c (.addOutput type column) (.ok (.name (c.fresh column)))
        (c.withOutput column source d)
  | declare {value : Value} {name : Option String} (h : name ≠ some "") :
      Outcome c (.declare value name) (.ok (.name (c.scope.claiming "const" name).1))
        (c.withLiteral value name)
  | access {container : Expr} {path : List Expr} {fallback : Option Expr} {name : Option String}
      (hpath : path ≠ []) (h : name ≠ some "") :
      Outcome c (.access container path fallback name)
        (.ok (.name (c.scope.claiming "elem" name).1))
        (c.withElement (.access container path fallback) name)
  | bindColumn {column name : String} (h : column ≠ "") (hn : name ∈ c.scope.pool.names) :
      Outcome c (.bindColumn column name) (.ok .done)
        { c with scope := c.scope.binding column name }
  | addExpr (e : Expr) :
      Outcome c (.addExpr e) (.ok .done) { c with body := c.body ++ [e] }
  | addExprs (es : List Expr) :
      Outcome c (.addExprs es) (.ok .done) { c with body := c.body ++ es }
  | addFunction {f : Function} (h : f.name ≠ "") (hf : c.hasFunction f.name = false)
      (ho : f.name ∉ c.operators.names) :
      Outcome c (.addFunction f) (.ok .done) (c.withFunction f)

theorem step_eq (call : Call) (c : Context) :
    call.step c = match call.perform c with
      | .ok a c => (.ok a, c)
      | .error e c => (.error e, c) := rfl

theorem step_outcome (call : Call) (c : Context) :
    Outcome c call (call.step c).1 (call.step c).2 := by
  cases call with
  | declareRef stem =>
      rw [step_eq, perform, map_apply, Build.declareRef_apply]
      by_cases h : stem = ""
      · rw [if_pos h]
        exact .failed _ _
      · rw [if_neg h]
        exact .declareRef h
  | operatorName stem =>
      rw [step_eq, perform, map_apply, Build.operatorName_apply]
      by_cases h : stem = ""
      · rw [if_pos h]
        exact .failed _ _
      · rw [if_neg h]
        exact .operatorName h
  | variableName column =>
      rw [step_eq, perform, map_apply, Build.variableName_apply]
      cases c.variableOf? column with
      | none => exact .failed _ _
      | some name => exact .read rfl _
  | lookupOrAllocate column =>
      rw [step_eq, perform, map_apply, Build.lookupOrAllocate_apply]
      by_cases h : column = ""
      · rw [if_pos h]
        exact .failed _ _
      · rw [if_neg h]
        cases hb : c.variableOf? column with
        | none => exact .allocate h hb
        | some name => exact .lookup h hb
  | addIntermediate type column =>
      rw [step_eq, perform, map_apply, Build.addIntermediate_apply]
      by_cases h : column = ""
      · rw [if_pos h]
        exact .failed _ _
      · rw [if_neg h]
        cases hd : type.descriptor? with
        | none => exact .failed _ _
        | some d => exact .addIntermediate h hd
  | addInput type column =>
      rw [step_eq, perform, map_apply, Build.addInput_apply]
      by_cases h : column = ""
      · rw [if_pos h]
        exact .failed _ _
      · rw [if_neg h]
        cases hd : type.descriptor? with
        | none => exact .failed _ _
        | some d => exact .addInput h hd
  | addOutput type column =>
      rw [step_eq, perform, map_apply, Build.addOutput_apply]
      by_cases h : column = ""
      · rw [if_pos h]
        exact .failed _ _
      · rw [if_neg h]
        cases hb : c.variableOf? column with
        | none => exact .failed _ _
        | some source =>
            cases hd : type.descriptor? with
            | none => exact .failed _ _
            | some d => exact .addOutput h hb hd
  | declare value name =>
      rw [step_eq, perform, map_apply, Build.declare_apply]
      by_cases h : name = some ""
      · rw [if_pos h]
        exact .failed _ _
      · rw [if_neg h]
        exact .declare h
  | access container path fallback name =>
      rw [step_eq, perform, map_apply, Build.access_apply]
      by_cases hpath : path.isEmpty = true
      · rw [if_pos hpath]
        exact .failed _ _
      · rw [if_neg hpath]
        by_cases h : name = some ""
        · rw [if_pos h]
          exact .failed _ _
        · rw [if_neg h]
          exact .access (fun hnil => hpath (List.isEmpty_iff.mpr hnil)) h
  | bindColumn column name =>
      rw [step_eq, perform, bind_apply, Build.bindColumn_apply]
      by_cases h : column = ""
      · rw [if_pos h]
        exact .failed _ _
      · rw [if_neg h]
        by_cases hn : c.scope.contains name = true
        · rw [if_pos hn]
          exact .bindColumn h ((NamePool.contains_iff _ _).mp hn)
        · rw [if_neg hn]
          exact .failed _ _
  | addExpr e => exact .addExpr e
  | addExprs es => exact .addExprs es
  | addFunction f =>
      rw [step_eq, perform, bind_apply, Build.addFunction_apply]
      by_cases h : f.name = ""
      · rw [if_pos h]
        exact .failed _ _
      · rw [if_neg h]
        by_cases hdup : c.hasFunction f.name = true ∨ c.operators.contains f.name = true
        · rw [if_pos hdup]
          exact .failed _ _
        · rw [if_neg hdup]
          obtain ⟨hf, ho⟩ := not_or.mp hdup
          exact .addFunction h (Bool.eq_false_iff.mpr hf)
            fun hmem => ho ((NamePool.contains_iff _ _).mpr hmem)
  | reference name => exact .read rfl _
  | definition name => exact .read rfl _
  | containsColumn column => exact .read rfl _
  | isOutput name => exact .read rfl _
  | inputs => exact .read rfl _
  | outputs => exact .read rfl _
  | body => exact .read rfl _
  | functions => exact .read rfl _
  | types => exact .read rfl _

/-! ## Runs -/

theorem run_cons (call : Call) (calls : List Call) (c : Context) :
    run (call :: calls) c
      = ((call.step c).1 :: (run calls (call.step c).2).1, (run calls (call.step c).2).2) := rfl

theorem run_append (calls later : List Call) (c : Context) :
    run (calls ++ later) c
      = ((run calls c).1 ++ (run later (run calls c).2).1, (run later (run calls c).2).2) := by
  induction calls generalizing c with
  | nil => rfl
  | cons call calls ih => rw [List.cons_append, run_cons, ih, run_cons]; rfl

/-- What is read off a run, call by call, begins with what is read off its first call. -/
theorem filterMap_run_cons {α : Type} (f : Call → Except BuildError Answer → Option α)
    (call : Call) (calls : List Call) (c : Context) :
    ((call :: calls).zip (run (call :: calls) c).1).filterMap (fun e => f e.1 e.2)
      = (f call (call.step c).1).toList
        ++ (calls.zip (run calls (call.step c).2).1).filterMap fun e => f e.1 e.2 := by
  rw [run_cons, List.zip_cons_cons, List.filterMap_cons]
  cases f call (call.step c).1 <;> rfl

end Call

/-! ## Reached contexts -/

/-- Some calls lead from the one context to the other. -/
def Context.Reaches (c c' : Context) : Prop := ∃ calls, (Call.run calls c).2 = c'

namespace Context.Reaches

theorem refl (c : Context) : c.Reaches c := ⟨[], rfl⟩

theorem trans {c c' c'' : Context} (h : c.Reaches c') (h' : c'.Reaches c'') : c.Reaches c'' := by
  obtain ⟨calls, rfl⟩ := h
  obtain ⟨later, rfl⟩ := h'
  exact ⟨calls ++ later, by rw [Call.run_append]⟩

theorem step (call : Call) (c : Context) : c.Reaches (call.step c).2 := ⟨[call], rfl⟩

/-- What each outcome of a call keeps is kept by runs. -/
theorem keeps (Holds : Context → Prop)
    (hstep : ∀ c call answer c', Call.Outcome c call answer c' → Holds c → Holds c')
    {c c' : Context} (h : c.Reaches c') (hc : Holds c) : Holds c' := by
  obtain ⟨calls, rfl⟩ := h
  induction calls generalizing c with
  | nil => exact hc
  | cons call calls ih => exact ih (hstep c call _ _ (Call.step_outcome call c) hc)

end Context.Reaches

/-! ## Contributions that work through the operations -/

section ByCalls

variable {ε α β : Type}

/-- The context that a contribution leaves, also when it fails. -/
def after (x : EStateM ε Context α) (c : Context) : Context :=
  match x c with
  | .ok _ c => c
  | .error _ c => c

/-- What the contribution does to a context, some calls do. The fields of
a context belong to its operations, so this holds of every stage. -/
def ByCalls (x : EStateM ε Context α) : Prop := ∀ c : Context, c.Reaches (after x c)

theorem after_bind (x : EStateM ε Context α) (f : α → EStateM ε Context β) (c : Context) :
    after (x >>= f) c = match x c with
      | .ok a c => after (f a) c
      | .error _ c => c := by
  unfold after
  rw [bind_apply]
  cases x c <;> rfl

theorem after_map (f : α → β) (x : EStateM ε Context α) (c : Context) :
    after (f <$> x) c = after x c := by
  unfold after
  rw [map_apply]
  cases x c <;> rfl

theorem byCalls_pure (a : α) : ByCalls (pure a : EStateM ε Context α) := Context.Reaches.refl

theorem byCalls_throw (e : ε) : ByCalls (throw e : EStateM ε Context α) := Context.Reaches.refl

theorem ByCalls.bind {x : EStateM ε Context α} {f : α → EStateM ε Context β} (hx : ByCalls x)
    (hf : ∀ a, ByCalls (f a)) : ByCalls (x >>= f) := by
  intro c
  have hfirst := hx c
  rw [after_bind]
  unfold after at hfirst
  cases h : x c with
  | ok a c' =>
      rw [h] at hfirst
      exact hfirst.trans (hf a c')
  | error e c' =>
      rw [h] at hfirst
      exact hfirst

theorem ByCalls.of_map {f : α → β} {x : EStateM ε Context α} (h : ByCalls (f <$> x)) :
    ByCalls x := by
  intro c
  rw [← after_map f x c]
  exact h c

theorem byCalls_perform (call : Call) : ByCalls call.perform := by
  intro c
  have hstep := Context.Reaches.step call c
  rw [Call.step_eq] at hstep
  unfold after
  cases h : call.perform c with
  | ok a c' => rwa [h] at hstep
  | error e c' => rwa [h] at hstep

theorem ByCalls.reaches {x : EStateM ε Context α} (h : ByCalls x) {c c' : Context} {a : α}
    (hrun : x c = .ok a c') : c.Reaches c' := by
  have hreaches := h c
  unfold after at hreaches
  rwa [hrun] at hreaches

end ByCalls

end ModelExport
