import ModelExport.Proofs.Context.Outcome

/-!
# Contexts only grow

What is in a context stays in it: parameters, statements and functions are
added at the end, names are never given back. `Context.Grows` says so of
two contexts, and it holds of the contexts before and after every call,
and so of those before and after every contribution that works through
calls. `Context.Writing` is more exact about statements and outputs: which
ones a call adds, and where its statements come from.
-/

namespace ModelExport

namespace Context

/-- The lists of the first context are still there in the second, in front
of what was added, and its names are still taken. -/
structure Grows (c c' : Context) : Prop where
  inputs : c.inputs <+: c'.inputs
  outputs : c.outputs <+: c'.outputs
  body : c.body <+: c'.body
  functions : c.functions <+: c'.functions
  names : c.scope.pool.names ⊆ c'.scope.pool.names
  operatorNames : c.operators.names ⊆ c'.operators.names

namespace Grows

theorem refl (c : Context) : c.Grows c where
  inputs := List.prefix_rfl
  outputs := List.prefix_rfl
  body := List.prefix_rfl
  functions := List.prefix_rfl
  names := List.Subset.refl _
  operatorNames := List.Subset.refl _

theorem trans {c c' c'' : Context} (h : c.Grows c') (h' : c'.Grows c'') : c.Grows c'' where
  inputs := h.inputs.trans h'.inputs
  outputs := h.outputs.trans h'.outputs
  body := h.body.trans h'.body
  functions := h.functions.trans h'.functions
  names := List.Subset.trans h.names h'.names
  operatorNames := List.Subset.trans h.operatorNames h'.operatorNames

end Grows

theorem Grows.keepReference {c c' : Context} (h : c.Grows c') (name : String) :
    c.Grows (c'.keepReference name) := by
  unfold Context.keepReference
  split
  · exact h
  · exact { h with }

end Context

namespace Call

open Context (Grows)

theorem Outcome.grows {c c' : Context} {call : Call} {answer : Except BuildError Answer}
    (h : Outcome c call answer c') : c.Grows c' := by
  have hself := Grows.refl c
  cases h with
  | failed call e => exact hself
  | read hread answer => exact hself
  | declareRef hstem =>
      refine Grows.keepReference ?_ _
      exact { hself with names := c.scope.subset_taking _ }
  | operatorName hstem => exact { hself with operatorNames := List.subset_cons_self _ _ }
  | lookup hcolumn hb => exact hself.keepReference _
  | allocate hcolumn hb =>
      refine Grows.keepReference ?_ _
      exact { hself with names := c.scope.subset_taking _ }
  | addIntermediate hcolumn hd =>
      refine Grows.keepReference ?_ _
      exact { hself with names := c.scope.subset_taking _ }
  | addInput hcolumn hd =>
      refine Grows.keepReference ?_ _
      exact
        { hself with
          names := c.scope.subset_taking _
          inputs := List.prefix_append _ _ }
  | addOutput hcolumn hb hd =>
      refine Grows.keepReference ?_ _
      exact
        { hself with
          names := c.scope.subset_taking _
          outputs := List.prefix_append _ _
          body := List.prefix_append _ _ }
  | declare hname =>
      refine Grows.keepReference ?_ _
      exact
        { hself with
          names := c.scope.subset_claiming _ _
          body := List.prefix_append _ _ }
  | access hpath hname =>
      refine Grows.keepReference ?_ _
      exact
        { hself with
          names := c.scope.subset_claiming _ _
          body := List.prefix_append _ _ }
  | bindColumn hcolumn hn => exact { hself with }
  | addExpr e => exact { hself with body := List.prefix_append _ _ }
  | addExprs es => exact { hself with body := List.prefix_append _ _ }
  | addFunction hname hf ho =>
      exact
        { hself with
          functions := List.prefix_append _ _
          operatorNames := fun n hn => (NamePool.mem_names_reserve _ _ n).mpr (Or.inr hn) }

end Call

theorem Context.Reaches.grows {c c' : Context} (h : c.Reaches c') : c.Grows c' :=
  h.keeps c.Grows (fun _ _ _ _ houtcome hgrows => hgrows.trans houtcome.grows) (.refl c)

theorem Call.run_grows (calls : List Call) (c : Context) : c.Grows (run calls c).2 :=
  Context.Reaches.grows ⟨calls, rfl⟩

theorem ByCalls.grows {ε α : Type} {x : EStateM ε Context α} (h : ByCalls x) {c c' : Context}
    {a : α} (hrun : x c = .ok a c') : c.Grows c' :=
  (h.reaches hrun).grows

/-! ## What a call writes -/

/-- The statements that the call adds as they stand. -/
def Call.statements : Call → List Expr
  | .addExpr e => [e]
  | .addExprs es => es
  | _ => []

/-- The ways in which the statements and the outputs of a context change,
when a call is given these statements to add. -/
inductive Context.Writing (c c' : Context) (given : List Expr) : Prop
  | nothing (outputs : c'.outputs = c.outputs) (body : c'.body = c.body)
  | added (outputs : c'.outputs = c.outputs) (body : c'.body = c.body ++ given)
  | introduced {name : String} {value : Expr} (outputs : c'.outputs = c.outputs)
      (body : c'.body = c.body ++ [.bindOne name value])
  | overwrote {output : Parameter} {value : Expr} (mem : output ∈ c.outputs)
      (outputs : c'.outputs = c.outputs) (body : c'.body = c.body ++ [.assign output.name value])
  | put {column source : String} {type : Descriptor} (held : c.variableOf? column = some source)
      (outputs : c'.outputs = c.outputs ++ [{ name := c.fresh column, type }])
      (body : c'.body = c.body ++ [.assign (c.fresh column) (.variable source)])

theorem Call.Outcome.writing {c c' : Context} {call : Call} {answer : Except BuildError Answer}
    (h : Outcome c call answer c') : c.Writing c' call.statements := by
  cases h with
  | failed call e => exact .nothing rfl rfl
  | read hread answer => exact .nothing rfl rfl
  | declareRef hstem =>
      exact .nothing (by simp [Context.withVariable]) (by simp [Context.withVariable])
  | operatorName hstem => exact .nothing rfl rfl
  | lookup hcolumn hb => exact .nothing (by simp) (by simp)
  | allocate hcolumn hb =>
      exact .nothing (by simp [Context.withColumn]) (by simp [Context.withColumn])
  | addIntermediate hcolumn hd =>
      exact .nothing (by simp [Context.withIntermediate]) (by simp [Context.withIntermediate])
  | addInput hcolumn hd =>
      exact .nothing (by simp [Context.withInput]) (by simp [Context.withInput])
  | @addOutput type column source d hcolumn hb hd =>
      have houtputs : (c.withOutput column source d).outputs
          = c.outputs ++ [{ name := c.fresh column, type := d }] := by
        simp [Context.withOutput]
      exact .put hb houtputs (by simp [Context.withOutput])
  | @declare value name hname =>
      have hbody : (c.withLiteral value name).body
          = c.body ++ [c.statementFor (c.scope.claiming "const" name).1 (.literal value)] := by
        simp [Context.withLiteral]
      unfold Context.statementFor Context.isOutput at hbody
      split at hbody
      · next houtput =>
          obtain ⟨output, hmem, hoverwritten⟩ := List.any_eq_true.mp houtput
          rw [← of_decide_eq_true hoverwritten] at hbody
          exact .overwrote hmem (by simp [Context.withLiteral]) hbody
      · exact .introduced (by simp [Context.withLiteral]) hbody
  | access hpath hname =>
      exact .introduced (by simp [Context.withElement]) (by simp [Context.withElement]; rfl)
  | bindColumn hcolumn hn => exact .nothing rfl rfl
  | addExpr e => exact .added rfl rfl
  | addExprs es => exact .added rfl rfl
  | addFunction hname hf ho => exact .nothing rfl rfl

end ModelExport
