import Mathlib.Data.List.Induction
import ModelExport.Proofs.Context.Reference

/-!
# The last binding of a column

A column is held by the variable that the latest of its bindings gave it.
`Call.Binds` says which calls bind a column, by the answers they have: the
ones that register an input or an intermediate variable for it, the ones
that bind it to a name, and a lookup while nothing holds it. Everything
else, outputs and declared names included, leaves the column alone
(`Call.Outcome.variableOf?`).

Over a run the last of these calls counts. The induction is on the run from
its end: either the last call binds the column, or the run before it says
what holds the column.
-/

namespace ModelExport

theorem Context.containsColumn_eq (c : Context) (column : String) :
    c.containsColumn column = (c.variableOf? column).isSome := rfl

namespace Call

/-- The call, which had the answer on the context, lets the name hold the column. -/
inductive Binds (c : Context) (column : String) : Call → Except BuildError Answer → String → Prop
  | input (type : ColumnType) (name : String) :
      Binds c column (.addInput type column) (.ok (.name name)) name
  | intermediate (type : ColumnType) (name : String) :
      Binds c column (.addIntermediate type column) (.ok (.name name)) name
  | bound (name : String) : Binds c column (.bindColumn column name) (.ok .done) name
  | allocated (name : String) (hfree : c.containsColumn column = false) :
      Binds c column (.lookupOrAllocate column) (.ok (.name name)) name

/-- The column that the operation may give a variable. -/
def binder? : Call → Option String
  | .addInput _ column | .addIntermediate _ column => some column
  | .bindColumn column _ | .lookupOrAllocate column => some column
  | _ => none

theorem Binds.binder? {c : Context} {column name : String} {call : Call}
    {answer : Except BuildError Answer} (h : Binds c column call answer name) :
    call.binder? = some column := by
  cases h <;> rfl

theorem Binds.name_unique {c : Context} {column name other : String} {call : Call}
    {answer : Except BuildError Answer} (h : Binds c column call answer name)
    (h' : Binds c column call answer other) : name = other := by
  cases h <;> cases h' <;> rfl

/-! ## One call -/

section Outcome

variable {c c' : Context} {column : String} {call : Call} {answer : Except BuildError Answer}

/-- The ways in which a call can concern the column. -/
inductive Holding (c : Context) (column : String) (call : Call) (answer : Except BuildError Answer)
    (c' : Context) : Prop
  | anew {name : String} (binds : Binds c column call answer name)
      (held : c'.variableOf? column = some name)
  | asBefore (binds : ∀ name, ¬ Binds c column call answer name)
      (held : c'.variableOf? column = c.variableOf? column)

theorem Holding.of_unbound (hcall : call.binder? ≠ some column)
    (hbindings : c'.scope.bindings = c.scope.bindings) : Holding c column call answer c' :=
  .asBefore (fun _ h => hcall h.binder?) (Context.variableOf?_of_same hbindings column)

/-- The call gives a variable to the column that it names, and to no other. -/
theorem Holding.of_binding {other name : String} (hcall : call.binder? = some other)
    (hbinds : Binds c other call answer name)
    (hbindings : c'.scope.bindings = (other, name) :: c.scope.bindings) :
    Holding c column call answer c' := by
  have hheld := Context.variableOf?_of_binding hbindings column
  by_cases hcolumn : column = other
  · subst hcolumn
    exact .anew hbinds (by rw [hheld, if_pos rfl])
  · refine .asBefore (fun n h => hcolumn ?_) (by rw [hheld, if_neg hcolumn])
    exact Option.some.inj (h.binder?.symm.trans hcall)

theorem Holding.of_binder?_ne (h : Holding c column call answer c')
    (hcall : call.binder? ≠ some column) : c'.variableOf? column = c.variableOf? column := by
  cases h with
  | anew binds => exact absurd binds.binder? hcall
  | asBefore _ held => exact held

theorem binder?_of_isRead (h : call.isRead = true) : call.binder? = none := by
  cases call <;> first | rfl | cases h

theorem Outcome.variableOf? (h : Outcome c call answer c') (column : String) :
    Holding c column call answer c' := by
  cases h with
  | failed call e => exact .asBefore nofun rfl
  | read hread answer => exact .of_unbound (by rw [binder?_of_isRead hread]; nofun) rfl
  | declareRef hstem => exact .of_unbound nofun (by simp [Context.withVariable])
  | operatorName hstem => exact .of_unbound nofun rfl
  | @lookup other name hother hb =>
      refine .asBefore (fun n hbinds => ?_) (Context.variableOf?_of_same (by simp) column)
      cases hbinds with
      | allocated _ hfree =>
          rw [Context.containsColumn_eq, hb] at hfree
          cases hfree
  | @allocate other hother hb =>
      have hfree : c.containsColumn other = false := by
        rw [Context.containsColumn_eq, hb]
        rfl
      exact .of_binding rfl (.allocated _ hfree) (by simp [Context.withColumn, Scope.binding])
  | addIntermediate hother hd =>
      exact .of_binding rfl (.intermediate _ _)
        (by simp [Context.withIntermediate, Scope.binding])
  | addInput hother hd =>
      exact .of_binding rfl (.input _ _) (by simp [Context.withInput, Scope.binding])
  | addOutput hother hb hd => exact .of_unbound nofun (by simp [Context.withOutput])
  | @declare value name hname =>
      exact .of_unbound nofun (by simp [Context.withLiteral])
  | @access container path fallback name hpath hname =>
      exact .of_unbound nofun (by simp [Context.withElement])
  | bindColumn hother hn => exact .of_binding rfl (.bound _) rfl
  | addExpr e => exact .of_unbound nofun rfl
  | addExprs es => exact .of_unbound nofun rfl
  | addFunction hname hf ho => exact .of_unbound nofun rfl

end Outcome

/-! ## Runs -/

theorem step_variableName (column : String) (c : Context) :
    (Call.variableName column).step c = match c.variableOf? column with
      | some name => (.ok (.name name), c)
      | none => (.error (.undefinedColumn column), c) := by
  rw [step_eq, perform, map_apply, Build.variableName_apply]
  cases c.variableOf? column <;> rfl

/-- Behind the calls in front of it, the call lets the name hold the column. -/
def BindsBehind (start : Context) (before : List Call) (column : String) (call : Call)
    (name : String) : Prop :=
  Binds (run before start).2 column call (call.step (run before start).2).1 name

/-- Somewhere among the calls one lets the name hold the column, and no later one binds it. -/
def LastBinds (start : Context) (calls : List Call) (column name : String) : Prop :=
  ∃ before call after, calls = before ++ call :: after ∧ BindsBehind start before column call name
    ∧ ∀ between later rest, after = between ++ later :: rest →
        ∀ n, ¬ BindsBehind start (before ++ call :: between) column later n

theorem run_concat (calls : List Call) (call : Call) (c : Context) :
    (run (calls ++ [call]) c).2 = (call.step (run calls c).2).2 := by
  rw [run_append]
  rfl

/-- One more call is the last that binds the column, or changes nothing about that. -/
theorem lastBinds_concat (start : Context) (calls : List Call) (call : Call)
    (column name : String) :
    LastBinds start (calls ++ [call]) column name
      ↔ BindsBehind start calls column call name
        ∨ (∀ n, ¬ BindsBehind start calls column call n) ∧ LastBinds start calls column name := by
  constructor
  · rintro ⟨before, last, after, hsplit, hbinds, hlast⟩
    rcases List.eq_nil_or_concat after with rfl | ⟨after, final, rfl⟩
    · obtain ⟨rfl, heq⟩ := List.append_inj' hsplit rfl
      obtain rfl := List.singleton_inj.mp heq
      exact .inl hbinds
    · rw [List.concat_eq_append, ← List.cons_append, ← List.append_assoc] at hsplit
      obtain ⟨rfl, heq⟩ := List.append_inj' hsplit rfl
      obtain rfl := List.singleton_inj.mp heq
      refine .inr ⟨hlast after _ [] (by simp), before, last, after, rfl, hbinds, ?_⟩
      intro between later rest hafter
      exact hlast between later (rest ++ [call]) (by simp [hafter])
  · rintro (hbinds | ⟨hnone, before, last, after, rfl, hbinds, hlast⟩)
    · exact ⟨calls, call, [], rfl, hbinds, by simp⟩
    · refine ⟨before, last, after ++ [call], by simp, hbinds, ?_⟩
      intro between later rest hafter
      rcases List.eq_nil_or_concat rest with rfl | ⟨rest, final, rfl⟩
      · obtain ⟨rfl, heq⟩ := List.append_inj' hafter rfl
        obtain rfl := List.singleton_inj.mp heq
        exact hnone
      · rw [List.concat_eq_append, ← List.cons_append, ← List.append_assoc] at hafter
        exact hlast between later rest (List.append_inj' hafter rfl).1

/-- What holds a column behind a run is what the last binding call let hold it. -/
theorem variableOf?_run (calls : List Call) (column name : String) :
    (run calls {}).2.variableOf? column = some name ↔ LastBinds {} calls column name := by
  induction calls using List.reverseRecOn with
  | nil => exact iff_of_false nofun fun ⟨before, call, after, h, _⟩ => by simp at h
  | append_singleton calls call ih =>
      rw [run_concat, lastBinds_concat, ← ih]
      cases (step_outcome call (run calls {}).2).variableOf? column with
      | @anew held binds heq =>
          have hbinds : BindsBehind {} calls column call held := binds
          rw [heq, Option.some.injEq, or_iff_left fun h => h.1 held hbinds]
          exact ⟨fun h => h ▸ hbinds, fun h => hbinds.name_unique h⟩
      | asBefore binds heq =>
          have hnone : ∀ n, ¬ BindsBehind {} calls column call n := binds
          rw [heq, or_iff_right (hnone name), and_iff_right hnone]

/-- Nothing holds a column behind a run in which no call bound it. -/
theorem variableOf?_run_eq_none (calls : List Call) (column : String) :
    (run calls {}).2.variableOf? column = none
      ↔ ∀ before call after, calls = before ++ call :: after →
          ∀ name, ¬ BindsBehind {} before column call name := by
  induction calls using List.reverseRecOn with
  | nil => exact iff_of_true rfl fun before call after h => by simp at h
  | append_singleton calls call ih =>
      rw [run_concat]
      cases (step_outcome call (run calls {}).2).variableOf? column with
      | @anew held binds heq =>
          rw [heq]
          exact iff_of_false nofun fun h => h calls call [] rfl held binds
      | asBefore binds heq =>
          rw [heq, ih]
          constructor
          · intro h before last after hsplit
            rcases List.eq_nil_or_concat after with rfl | ⟨after, final, rfl⟩
            · obtain ⟨rfl, heq⟩ := List.append_inj' hsplit rfl
              obtain rfl := List.singleton_inj.mp heq
              exact binds
            · rw [List.concat_eq_append, ← List.cons_append, ← List.append_assoc] at hsplit
              exact h before last after (List.append_inj' hsplit rfl).1
          · intro h before last after hsplit
            exact h before last (after ++ [call]) (by simp [hsplit])

/-! ## The headline theorem -/

/-- Behind every run a column resolves to the name that the last call to
bind it gave or was given, and to nothing exactly when none did. A call
that is no binding operation of the column does not change what the column
resolves to. -/
theorem last_binding_resolves (calls : List Call) (column : String) :
    let c := (run calls {}).2
    (∀ name, (Call.variableName column).step c = (.ok (.name name), c)
        ↔ LastBinds {} calls column name)
      ∧ ((Call.variableName column).step c = (.error (.undefinedColumn column), c)
        ↔ ∀ before call after, calls = before ++ call :: after →
            ∀ name, ¬ BindsBehind {} before column call name)
      ∧ ∀ call : Call, call.binder? ≠ some column →
          ((Call.variableName column).step (call.step c).2).1
            = ((Call.variableName column).step c).1 := by
  intro c
  refine ⟨fun name => ?_, ?_, fun call hcall => ?_⟩
  · rw [← variableOf?_run, step_variableName]
    cases (run calls {}).2.variableOf? column <;> simp
  · rw [← variableOf?_run_eq_none, step_variableName]
    cases (run calls {}).2.variableOf? column <;> simp
  · have hsame := ((step_outcome call c).variableOf? column).of_binder?_ne hcall
    rw [step_variableName, step_variableName, hsame]
    cases c.variableOf? column <;> rfl

-- The column is held by its latest variable. An output for it, a literal declared under
-- that variable's name and a second lookup leave it there.
example :
    let calls : List Call :=
      [.lookupOrAllocate "x", .addIntermediate (.ofKind .float32) "x",
       .addOutput (.ofKind .float32) "x", .declare (.int64 0) "x1", .lookupOrAllocate "x"]
    (run calls {}).2.variableOf? "x" = some "x1" := by
  decide +kernel

end Call

end ModelExport
