import ModelExport.Proofs.Context.Growth
import ModelExport.Proofs.Context.Reference
import ModelExport.Proofs.Names.Keys

/-!
# Columns that share no variable

The variables of a context are a scope, with the columns for its keys. Every
operation but `bindColumn` draws from it (`Call.Outcome.draws`), so what holds of
draws holds of runs: different columns are held by different variables, and no
column is held by a variable that was taken for something else, such as a
declared reference, a literal, an element or an output (`Call.Mints`).
-/

namespace ModelExport

theorem Context.Referenced.backed {c : Context} (h : c.Referenced) : c.scope.Backed := by
  intro column name hheld
  obtain ⟨-, href⟩ := h.columns column name hheld
  exact (c.scope.contains_iff name).mpr ((h.names name).mp href)

namespace Call

/-- The call, which had the answer on the context, took the variable for no
column. A name that the caller chose counts if it was free. -/
inductive Mints (c : Context) : Call → Except BuildError Answer → String → Prop
  | reference (stem name : String) : Mints c (.declareRef stem) (.ok (.name name)) name
  | literal (value : Value) {chosen : Option String} (name : String)
      (hfree : ∀ n ∈ chosen, c.scope.contains n = false) :
      Mints c (.declare value chosen) (.ok (.name name)) name
  | element (container : Expr) (path : List Expr) (fallback : Option Expr)
      {chosen : Option String} (name : String)
      (hfree : ∀ n ∈ chosen, c.scope.contains n = false) :
      Mints c (.access container path fallback chosen) (.ok (.name name)) name
  | output (type : ColumnType) (column name : String) :
      Mints c (.addOutput type column) (.ok (.name name)) name

/-! ## One call -/

section Outcome

variable {c c' : Context} {call : Call} {answer : Except BuildError Answer}

theorem Outcome.draws (h : Outcome c call answer c')
    (hcall : ∀ column name, call ≠ .bindColumn column name) : c.scope.Draws c'.scope := by
  cases h with
  | failed call e => exact .refl _
  | read hread answer => exact .refl _
  | declareRef hstem =>
      exact .kept (by simp [Context.withVariable]) (by simp [Context.withVariable])
  | operatorName hstem => exact .refl _
  | lookup hcolumn hb =>
      rw [Context.scope_keepReference]
      exact .refl _
  | allocate hcolumn hb =>
      rw [Context.withColumn, Context.scope_keepReference]
      exact .of_pick c.scope _
  | addIntermediate hcolumn hd =>
      rw [Context.withIntermediate, Context.scope_keepReference]
      exact .of_pick c.scope _
  | addInput hcolumn hd =>
      rw [Context.withInput, Context.scope_keepReference]
      exact .of_pick c.scope _
  | addOutput hcolumn hb hd =>
      exact .kept (by simp [Context.withOutput]) (by simp [Context.withOutput])
  | @declare value name hname =>
      rw [Context.withLiteral, Context.scope_keepReference]
      exact .kept (c.scope.subset_claiming "const" name) (c.scope.bindings_claiming "const" name)
  | @access container path fallback name hpath hname =>
      rw [Context.withElement, Context.scope_keepReference]
      exact .kept (c.scope.subset_claiming "elem" name) (c.scope.bindings_claiming "elem" name)
  | bindColumn hcolumn hn => exact absurd rfl (hcall _ _)
  | addExpr e => exact .refl _
  | addExprs es => exact .refl _
  | addFunction hname hf ho => exact .refl _

theorem Outcome.setAside (h : Outcome c call answer c') {name : String} (hc : c.scope.Backed)
    (hmints : Mints c call answer name) : c'.scope.SetAside name := by
  cases hmints with
  | reference stem name =>
      cases h with
      | read hread => cases hread
      | declareRef hstem =>
          exact .of_minted hc (c.fresh_not_mem stem) (by simp [Context.withVariable, Context.fresh])
            (by simp [Context.withVariable])
  | @literal value chosen name hfree =>
      cases h with
      | read hread => cases hread
      | declare hname =>
          rw [Context.withLiteral, Context.scope_keepReference]
          exact .of_claiming hc "const" hfree
  | @element container path fallback chosen name hfree =>
      cases h with
      | read hread => cases hread
      | access hpath hname =>
          rw [Context.withElement, Context.scope_keepReference]
          exact .of_claiming hc "elem" hfree
  | output type column name =>
      cases h with
      | read hread => cases hread
      | addOutput hcolumn hb hd =>
          exact .of_minted hc (c.fresh_not_mem column) (by simp [Context.withOutput, Context.fresh])
            (by simp [Context.withOutput])

end Outcome

/-! ## Runs -/

theorem run_drawsMany {calls : List Call} (h : ∀ column name, .bindColumn column name ∉ calls)
    (c : Context) : c.scope.DrawsMany (run calls c).2.scope := by
  induction calls generalizing c with
  | nil => exact .refl
  | cons call calls ih =>
      have hcall : ∀ column name, call ≠ .bindColumn column name :=
        fun column name heq => h column name (heq ▸ List.mem_cons_self ..)
      have hrest : ∀ column name, .bindColumn column name ∉ calls :=
        fun column name hmem => h column name (List.mem_cons_of_mem _ hmem)
      exact .head ((step_outcome call c).draws hcall) (ih hrest _)

theorem run_backed (calls : List Call) : (run calls {}).2.scope.Backed :=
  (Context.Reaches.referenced ⟨calls, rfl⟩ Context.referenced_empty).backed

theorem run_keysApart {calls : List Call} (h : ∀ column name, .bindColumn column name ∉ calls) :
    (run calls {}).2.scope.KeysApart :=
  (Scope.keysApart_empty.drawsMany (run_drawsMany h {}) Scope.backed_empty).1

/-- What was taken for no column holds none after the calls that follow. -/
theorem run_setAside {before after : List Call} {call : Call} {name : String}
    (h : ∀ column other, .bindColumn column other ∉ after)
    (hmints : Mints (run before {}).2 call (call.step (run before {}).2).1 name) :
    (run (before ++ call :: after) {}).2.scope.SetAside name := by
  rw [run_append, run_cons]
  exact ((step_outcome call _).setAside (run_backed before) hmints).drawsMany (run_drawsMany h _)

end Call

/-! ## The headline theorem -/

/-- Whatever is called on a scope, all that keys are bound to is taken. Where no
call binds by hand, different keys have different names, and a name that a call
took for no key, a fresh or a newly reserved one, is bound to none. The same holds
of columns and the variables that hold them, where no call binds a column by hand. -/
theorem keys_share_no_name :
    (∀ calls : List ScopeCall,
      let s := (ScopeCall.run calls {}).2
      s.Backed
        ∧ ((∀ key name, .bind key name ∉ calls) →
            s.KeysApart
            ∧ ∀ before call after, calls = before ++ call :: after → ∀ name,
                ScopeCall.Mints call (call.step (ScopeCall.run before {}).2).1 name →
                  s.SetAside name))
    ∧ ∀ calls : List Call,
      let c := (Call.run calls {}).2
      c.scope.Backed
        ∧ ((∀ column name, .bindColumn column name ∉ calls) →
            (∀ column other name, c.variableOf? column = some name →
              c.variableOf? other = some name → column = other)
            ∧ ∀ before call after, calls = before ++ call :: after → ∀ name,
                Call.Mints (Call.run before {}).2 call (call.step (Call.run before {}).2).1 name →
                  ∀ column, c.variableOf? column ≠ some name) := by
  constructor
  · intro calls s
    refine ⟨ScopeCall.run_backed calls Scope.backed_empty, fun h => ?_⟩
    refine ⟨ScopeCall.run_keysApart h, ?_⟩
    rintro before call after rfl name hmints
    refine ScopeCall.run_setAside (fun key other hmem => h key other ?_) hmints
    exact List.mem_append_right _ (List.mem_cons_of_mem _ hmem)
  · intro calls c
    refine ⟨Call.run_backed calls, fun h => ?_⟩
    refine ⟨Call.run_keysApart h, ?_⟩
    rintro before call after rfl name hmints
    refine (Call.run_setAside (fun column other hmem => h column other ?_) hmints).unbound
    exact List.mem_append_right _ (List.mem_cons_of_mem _ hmem)

/-- Keys that look like numbered forms of one another, among names that were
reserved and declared. -/
theorem keys_share_no_name_numbered :
    let scopeCalls : List ScopeCall :=
      [.allocate "col", .lookupOrAllocate "col1", .reserve "col2", .allocate "col", .fresh "col"]
    let calls : List Call :=
      [.addInput (.ofKind .float32) "x", .lookupOrAllocate "x1", .declareRef "x",
       .lookupOrAllocate "x2"]
    let s := (ScopeCall.run scopeCalls {}).2
    let c := (Call.run calls {}).2
    s.bindings = [("col", "col3"), ("col1", "col1"), ("col", "col")]
      ∧ s.KeysApart ∧ s.SetAside "col2" ∧ s.SetAside "col4"
      ∧ c.scope.bindings = [("x2", "x21"), ("x1", "x1"), ("x", "x")]
      ∧ ∀ column, c.variableOf? column ≠ some "x2" := by
  intro scopeCalls calls s c
  obtain ⟨-, hscope⟩ := keys_share_no_name.1 scopeCalls
  obtain ⟨-, hcontext⟩ := keys_share_no_name.2 calls
  obtain ⟨hapart, hminted⟩ := hscope (by simp [scopeCalls])
  obtain ⟨-, hunheld⟩ := hcontext (by simp [calls])
  let allocated : List ScopeCall := [.allocate "col", .lookupOrAllocate "col1"]
  have hreserve : (ScopeCall.step (.reserve "col2") (ScopeCall.run allocated {}).2).1
      = .ok (.flag true) := by decide +kernel
  have hfresh : (ScopeCall.step (.fresh "col")
      (ScopeCall.run (allocated ++ [.reserve "col2", .allocate "col"]) {}).2).1
        = .ok (.name "col4") := by decide +kernel
  let held : List Call := [.addInput (.ofKind .float32) "x", .lookupOrAllocate "x1"]
  have hfree : (Call.run held {}).2.fresh "x" = "x2" := by decide +kernel
  have hdeclare : (Call.step (.declareRef "x") (Call.run held {}).2).1 = .ok (.name "x2") := by
    rw [Call.step_eq, Call.perform, map_apply, Build.declareRef_apply, if_neg (by decide), ← hfree]
  refine ⟨by decide +kernel, hapart, ?_, ?_, by decide +kernel, ?_⟩
  · refine hminted allocated (.reserve "col2") _ rfl "col2" ?_
    rw [hreserve]
    exact .reserve "col2"
  · refine hminted (allocated ++ [.reserve "col2", .allocate "col"]) (.fresh "col") [] rfl "col4" ?_
    rw [hfresh]
    exact .fresh "col" "col4"
  · refine hunheld held (.declareRef "x") _ rfl "x2" ?_
    rw [hdeclare]
    exact .reference "x" "x2"

end ModelExport
