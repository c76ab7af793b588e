import Mathlib.Data.List.Basic
import Mathlib.Data.List.Nodup
import ModelExport.Proofs.Context.Outcome

/-!
# Registered variables

Inputs, outputs and the variables of produced columns are registered: each
gets a new name and the translation of a column type. The invariant
`Context.Typed` ties the three tables of a context together: the names of
the types are taken in the pool, and every parameter has its type among
them. A new name is not taken, so it is not among the types either, and
writing its type overwrites nothing - whatever names were chosen by hand
or bound to columns in between.

`Call.run_typed` reads the table of types off a run: it holds what the
calls registered, in order.
-/

namespace ModelExport

/-! ## Tables -/

namespace Table

variable {α : Type}

theorem entries_insert_of_not_mem (t : Table α) {name : String} (value : α)
    (h : name ∉ t.names) : (t.insert name value).entries = t.entries ++ [(name, value)] :=
  write_of_not_mem value h

theorem get?_eq_some_of_mem (t : Table α) {name : String} {value : α}
    (h : (name, value) ∈ t.entries) : t.get? name = some value := by
  obtain ⟨before, after, hsplit⟩ := List.append_of_mem h
  have hnodup := t.nodup
  rw [hsplit, List.map_append, List.map_cons] at hnodup
  refine List.lookup_eq_some_iff.mpr ⟨before, after, hsplit, ?_⟩
  intro e he
  have hne := (List.nodup_append.mp hnodup).2.2 e.1 (List.mem_map_of_mem he) name
    (List.mem_cons_self ..)
  simpa using fun heq => hne heq.symm

end Table

/-- The parameters have different names, none of them empty, and each has
its type in the table. -/
structure Signature.DeclaredIn (s : Signature) (types : Table Descriptor) : Prop where
  nodup : ((s.inputs ++ s.outputs).map (·.name)).Nodup
  ne_empty : ∀ p ∈ s.inputs ++ s.outputs, p.name ≠ ""
  typed : ∀ p ∈ s.inputs ++ s.outputs, types.get? p.name = some p.type

namespace Context

/-! ## The invariant -/

/-- The parameters are among the typed variables, and those are among the taken names. -/
structure Typed (c : Context) : Prop where
  taken : ∀ e ∈ c.types.entries, e.1 ∈ c.scope.pool.names
  ne_empty : ∀ e ∈ c.types.entries, e.1 ≠ ""
  parameters : ∀ p ∈ c.inputs ++ c.outputs, (p.name, p.type) ∈ c.types.entries
  nodup : ((c.inputs ++ c.outputs).map (·.name)).Nodup

theorem typed_empty : Typed {} where
  taken _ he := absurd he List.not_mem_nil
  ne_empty _ he := absurd he List.not_mem_nil
  parameters _ hp := absurd hp List.not_mem_nil
  nodup := List.nodup_nil

variable {c c' : Context}

theorem Typed.declaredIn (h : c.Typed) : Signature.DeclaredIn ⟨c.inputs, c.outputs⟩ c.types where
  nodup := h.nodup
  ne_empty p hp := h.ne_empty _ (h.parameters p hp)
  typed p hp := c.types.get?_eq_some_of_mem (h.parameters p hp)

/-- Taking further names touches nothing that is registered. -/
theorem Typed.of_same (h : c.Typed) (hnames : c.scope.pool.names ⊆ c'.scope.pool.names)
    (ht : c'.types = c.types) (hi : c'.inputs = c.inputs) (ho : c'.outputs = c.outputs) :
    c'.Typed := by
  obtain ⟨htaken, hne, hparams, hnodup⟩ := h
  refine ⟨?_, ?_, ?_, ?_⟩
  · rw [ht]
    exact fun e he => hnames (htaken e he)
  · rwa [ht]
  · rwa [hi, ho, ht]
  · rwa [hi, ho]

theorem Typed.fresh_not_typed (h : c.Typed) (stem : String) : c.fresh stem ∉ c.types.names := by
  intro hmem
  obtain ⟨e, he, heq⟩ := List.mem_map.mp hmem
  exact c.fresh_not_mem stem (heq ▸ h.taken e he)

/-- A new variable with a type, perhaps a parameter as well. -/
theorem Typed.register (h : c.Typed) {stem : String} (hstem : stem ≠ "") {d : Descriptor}
    (hnames : c'.scope.pool.names = c.fresh stem :: c.scope.pool.names)
    (ht : c'.types = c.types.insert (c.fresh stem) d)
    (hps : c'.inputs ++ c'.outputs = c.inputs ++ c.outputs
      ∨ (c'.inputs ++ c'.outputs).Perm
          ({ name := c.fresh stem, type := d } :: (c.inputs ++ c.outputs))) :
    c'.Typed ∧ c'.types.entries = c.types.entries ++ [(c.fresh stem, d)] := by
  have hentries : c'.types.entries = c.types.entries ++ [(c.fresh stem, d)] := by
    rw [ht]
    exact c.types.entries_insert_of_not_mem d (h.fresh_not_typed stem)
  have hold : ∀ p ∈ c.inputs ++ c.outputs, (p.name, p.type) ∈ c'.types.entries := by
    intro p hp
    rw [hentries]
    exact List.mem_append_left _ (h.parameters p hp)
  have hnew : c.fresh stem ∉ (c.inputs ++ c.outputs).map (·.name) := by
    intro hmem
    obtain ⟨p, hp, heq⟩ := List.mem_map.mp hmem
    exact h.fresh_not_typed stem (heq ▸ List.mem_map_of_mem (h.parameters p hp))
  refine ⟨⟨?_, ?_, ?_, ?_⟩, hentries⟩
  · intro e he
    rw [hentries] at he
    rw [hnames]
    rcases List.mem_append.mp he with he | he
    · exact List.mem_cons_of_mem _ (h.taken e he)
    · obtain rfl := List.mem_singleton.mp he
      exact List.mem_cons_self ..
  · intro e he
    rw [hentries] at he
    rcases List.mem_append.mp he with he | he
    · exact h.ne_empty e he
    · obtain rfl := List.mem_singleton.mp he
      exact c.fresh_ne_empty hstem
  · intro p hp
    rcases hps with heq | hperm
    · exact hold p (heq ▸ hp)
    · rcases List.mem_cons.mp (hperm.mem_iff.mp hp) with rfl | hp
      · rw [hentries]
        exact List.mem_append_right _ (List.mem_singleton.mpr rfl)
      · exact hold p hp
  · rcases hps with heq | hperm
    · rw [heq]
      exact h.nodup
    · rw [(hperm.map _).nodup_iff, List.map_cons, List.nodup_cons]
      exact ⟨hnew, h.nodup⟩

end Context

namespace Call

/-! ## What calls register -/

/-- The variable that a call registered, with the column type it was given. -/
def registered? : Call → Except BuildError Answer → Option (String × ColumnType)
  | .addIntermediate type _, .ok (.name name) => some (name, type)
  | .addInput type _, .ok (.name name) => some (name, type)
  | .addOutput type _, .ok (.name name) => some (name, type)
  | _, _ => none

/-- The variables that the calls registered by the answers they had, in the order of the calls. -/
def registrations (calls : List Call) (answers : List (Except BuildError Answer)) :
    List (String × ColumnType) :=
  (calls.zip answers).filterMap fun e => registered? e.1 e.2

theorem registered?_of_isRead {call : Call} (h : call.isRead = true)
    (answer : Except BuildError Answer) : registered? call answer = none := by
  cases call <;> first | rfl | cases h

theorem registered?_error (call : Call) (e : BuildError) : registered? call (.error e) = none := by
  cases call <;> rfl

/-- The types after the calls are those before them, and behind them what
the calls registered. -/
def Extends (c c' : Context) (new : List (String × ColumnType)) : Prop :=
  ∃ added, c'.types.entries = c.types.entries ++ added
    ∧ added.map (fun e => (e.1, some e.2)) = new.map (fun r => (r.1, r.2.descriptor?))

theorem Extends.of_same {c c' : Context} (h : c'.types = c.types) : Extends c c' [] :=
  ⟨[], by rw [h, List.append_nil], rfl⟩

theorem Extends.trans {c c' c'' : Context} {new later : List (String × ColumnType)}
    (h : Extends c c' new) (h' : Extends c' c'' later) : Extends c c'' (new ++ later) := by
  obtain ⟨added, hentries, hnew⟩ := h
  obtain ⟨added', hentries', hlater⟩ := h'
  refine ⟨added ++ added', ?_, ?_⟩
  · rw [hentries', hentries, List.append_assoc]
  · rw [List.map_append, List.map_append, hnew, hlater]

section Outcome

variable {c c' : Context} {call : Call} {answer : Except BuildError Answer}

theorem typed_of_same (h : c.Typed) (hnames : c.scope.pool.names ⊆ c'.scope.pool.names)
    (ht : c'.types = c.types) (hi : c'.inputs = c.inputs) (ho : c'.outputs = c.outputs) :
    c'.Typed ∧ Extends c c' [] :=
  ⟨h.of_same hnames ht hi ho, .of_same ht⟩

theorem typed_of_register (h : c.Typed) {column : String} (hcolumn : column ≠ "")
    {type : ColumnType} {d : Descriptor} (hd : type.descriptor? = some d)
    (hnames : c'.scope.pool.names = c.fresh column :: c.scope.pool.names)
    (ht : c'.types = c.types.insert (c.fresh column) d)
    (hps : c'.inputs ++ c'.outputs = c.inputs ++ c.outputs
      ∨ (c'.inputs ++ c'.outputs).Perm
          ({ name := c.fresh column, type := d } :: (c.inputs ++ c.outputs))) :
    c'.Typed ∧ Extends c c' [(c.fresh column, type)] := by
  obtain ⟨htyped, hentries⟩ := h.register hcolumn hnames ht hps
  refine ⟨htyped, [(c.fresh column, d)], hentries, ?_⟩
  rw [List.map_singleton, List.map_singleton, hd]

theorem Outcome.typed (h : c.Typed) (ho : Outcome c call answer c') :
    c'.Typed ∧ Extends c c' (registered? call answer).toList := by
  cases ho with
  | failed call e =>
      rw [registered?_error]
      exact typed_of_same h (List.Subset.refl _) rfl rfl rfl
  | read hread answer =>
      rw [registered?_of_isRead hread]
      exact typed_of_same h (List.Subset.refl _) rfl rfl rfl
  | declareRef hstem =>
      exact typed_of_same h (by simp [Context.withVariable]) (by simp [Context.withVariable])
        (by simp [Context.withVariable]) (by simp [Context.withVariable])
  | operatorName hstem => exact typed_of_same h (List.Subset.refl _) rfl rfl rfl
  | lookup hcolumn hb => exact typed_of_same h (by simp) (by simp) (by simp) (by simp)
  | allocate hcolumn hb =>
      exact typed_of_same h (by simp [Context.withColumn]) (by simp [Context.withColumn])
        (by simp [Context.withColumn]) (by simp [Context.withColumn])
  | addIntermediate hcolumn hd =>
      exact typed_of_register h hcolumn hd (by simp [Context.withIntermediate, Context.fresh])
        (by simp [Context.withIntermediate]) (Or.inl (by simp [Context.withIntermediate]))
  | addInput hcolumn hd =>
      refine typed_of_register h hcolumn hd (by simp [Context.withInput, Context.fresh])
        (by simp [Context.withInput]) (Or.inr ?_)
      simp only [Context.withInput, Context.inputs_keepReference, Context.outputs_keepReference,
        List.append_assoc]
      exact List.perm_middle
  | addOutput hcolumn hb hd =>
      refine typed_of_register h hcolumn hd (by simp [Context.withOutput, Context.fresh])
        (by simp [Context.withOutput]) (Or.inr ?_)
      simp only [Context.withOutput, Context.inputs_keepReference, Context.outputs_keepReference,
        ← List.append_assoc]
      exact List.perm_append_singleton _ _
  | @declare value name hname =>
      refine typed_of_same h ?_ (by simp [Context.withLiteral]) (by simp [Context.withLiteral])
        (by simp [Context.withLiteral])
      intro n hn
      simpa [Context.withLiteral] using
        (Scope.mem_names_claiming c.scope "const" name n).mpr (Or.inr hn)
  | @access container path fallback name hpath hname =>
      refine typed_of_same h ?_ (by simp [Context.withElement]) (by simp [Context.withElement])
        (by simp [Context.withElement])
      intro n hn
      simpa [Context.withElement] using
        (Scope.mem_names_claiming c.scope "elem" name n).mpr (Or.inr hn)
  | bindColumn hcolumn hn => exact typed_of_same h (List.Subset.refl _) rfl rfl rfl
  | addExpr e => exact typed_of_same h (List.Subset.refl _) rfl rfl rfl
  | addExprs es => exact typed_of_same h (List.Subset.refl _) rfl rfl rfl
  | addFunction hname hf ho => exact typed_of_same h (List.Subset.refl _) rfl rfl rfl

end Outcome

/-! ## Runs -/

theorem run_typed {c : Context} (h : c.Typed) (calls : List Call) :
    (run calls c).2.Typed
      ∧ Extends c (run calls c).2 (registrations calls (run calls c).1) := by
  induction calls generalizing c with
  | nil => exact ⟨h, .of_same rfl⟩
  | cons call calls ih =>
      obtain ⟨hstep, hnew⟩ := (step_outcome call c).typed h
      obtain ⟨hrun, hlater⟩ := ih hstep
      refine ⟨hrun, ?_⟩
      have hsplit : registrations (call :: calls) (run (call :: calls) c).1
          = (registered? call (call.step c).1).toList
            ++ registrations calls (run calls (call.step c).2).1 :=
        filterMap_run_cons registered? call calls c
      rw [hsplit]
      exact hnew.trans hlater

end Call

end ModelExport
