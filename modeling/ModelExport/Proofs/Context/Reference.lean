import ModelExport.Proofs.Context.Outcome

/-!
# References to names

Whoever takes a name keeps a reference to it, so the names with a reference
are the names of the pool. The two tables are written by different parts of
an operation, and a name can come from a stem or from the caller, be new or
in use already. `Context.Naming` therefore says once what a call can do to
the names of a context, with four cases instead of one for each operation:
it leaves them alone, takes a name, looks one up, or lets a column be held
by one that is taken.

`Context.Referenced` is the invariant. On the contexts that keep it, a
column can be bound to a name exactly when there is a reference to the
name, and no reference is ever lost (`Call.references_cover_names`).
-/

namespace ModelExport

namespace Context

/-! ## What a call does to the names -/

/-- The ways in which the names of a context change, with what they refer
to and what they hold. -/
inductive Naming (c c' : Context) : Prop
  | same (scope : c'.scope = c.scope) (references : c'.references = c.references)
      (definitions : c'.definitions = c.definitions)
  | took {name : String} (ne_empty : name ≠ "")
      (names : ∀ n, n ∈ c'.scope.pool.names ↔ n = name ∨ n ∈ c.scope.pool.names)
      (bindings : c'.scope.bindings = c.scope.bindings
        ∨ ∃ column, column ≠ "" ∧ c'.scope.bindings = (column, name) :: c.scope.bindings)
      (references : c'.references = (c.keepReference name).references)
      (definitions : c'.definitions = c.definitions
        ∨ ∃ literal, c'.definitions = (name, literal) :: c.definitions)
  | found {column name : String} (held : c.variableOf? column = some name)
      (scope : c'.scope = c.scope) (references : c'.references = (c.keepReference name).references)
      (definitions : c'.definitions = c.definitions)
  | bound {column name : String} (ne_empty : column ≠ "") (taken : name ∈ c.scope.pool.names)
      (scope : c'.scope = c.scope.binding column name) (references : c'.references = c.references)
      (definitions : c'.definitions = c.definitions)

variable {c c' d : Context}

theorem references_keepReference_congr (h : d.references = c.references) (name : String) :
    (d.keepReference name).references = (c.keepReference name).references := by
  unfold keepReference reference?
  rw [h]
  split
  · exact h
  · rfl

/-- A name is taken, and then the reference to it is kept. -/
theorem Naming.took_keeping {name : String} (hname : name ≠ "")
    (hnames : ∀ n, n ∈ d.scope.pool.names ↔ n = name ∨ n ∈ c.scope.pool.names)
    (hbindings : d.scope.bindings = c.scope.bindings
      ∨ ∃ column, column ≠ "" ∧ d.scope.bindings = (column, name) :: c.scope.bindings)
    (hreferences : d.references = c.references)
    (hdefinitions : d.definitions = c.definitions
      ∨ ∃ literal, d.definitions = (name, literal) :: c.definitions) :
    c.Naming (d.keepReference name) := by
  refine .took hname ?_ ?_ (references_keepReference_congr hreferences name) ?_
  · rwa [scope_keepReference]
  · rwa [scope_keepReference]
  · rwa [definitions_keepReference]

/-- A fresh name is taken, perhaps for a column. -/
theorem Naming.took_fresh {stem : String} (hstem : stem ≠ "")
    (hnames : d.scope.pool.names = c.fresh stem :: c.scope.pool.names)
    (hbindings : d.scope.bindings = c.scope.bindings
      ∨ ∃ column, column ≠ "" ∧ d.scope.bindings = (column, c.fresh stem) :: c.scope.bindings)
    (hreferences : d.references = c.references) (hdefinitions : d.definitions = c.definitions) :
    c.Naming (d.keepReference (c.fresh stem)) := by
  refine .took_keeping (c.fresh_ne_empty hstem) ?_ hbindings hreferences (Or.inl hdefinitions)
  intro n
  rw [hnames]
  exact List.mem_cons

end Context

theorem Call.Outcome.naming {c c' : Context} {call : Call} {answer : Except BuildError Answer}
    (h : Outcome c call answer c') : c.Naming c' := by
  cases h with
  | failed call e => exact .same rfl rfl rfl
  | read hread answer => exact .same rfl rfl rfl
  | declareRef hstem => exact .took_fresh hstem rfl (Or.inl rfl) rfl rfl
  | operatorName hstem => exact .same rfl rfl rfl
  | lookup hcolumn hb => exact .found hb (by simp) rfl (by simp)
  | allocate hcolumn hb => exact .took_fresh hcolumn rfl (Or.inr ⟨_, hcolumn, rfl⟩) rfl rfl
  | addIntermediate hcolumn hd => exact .took_fresh hcolumn rfl (Or.inr ⟨_, hcolumn, rfl⟩) rfl rfl
  | addInput hcolumn hd => exact .took_fresh hcolumn rfl (Or.inr ⟨_, hcolumn, rfl⟩) rfl rfl
  | addOutput hcolumn hb hd => exact .took_fresh hcolumn rfl (Or.inl rfl) rfl rfl
  | @declare value name hname =>
      exact .took_keeping (c.scope.claiming_ne_empty (by decide) hname)
        (c.scope.mem_names_claiming "const" name) (Or.inl (by simp)) rfl (Or.inr ⟨_, rfl⟩)
  | @access container path fallback name hpath hname =>
      exact .took_keeping (c.scope.claiming_ne_empty (by decide) hname)
        (c.scope.mem_names_claiming "elem" name) (Or.inl (by simp)) rfl (Or.inl rfl)
  | bindColumn hcolumn hn => exact .bound hcolumn hn rfl rfl rfl
  | addExpr e => exact .same rfl rfl rfl
  | addExprs es => exact .same rfl rfl rfl
  | addFunction hname hf ho => exact .same rfl rfl rfl

namespace Context

variable {c c' : Context}

/-! ## The invariant -/

/-- The names with a reference are those of the pool, each refers to
itself, and what is defined or holds a column is among them. -/
structure Referenced (c : Context) : Prop where
  names : ∀ name, (c.reference? name).isSome = true ↔ name ∈ c.scope.pool.names
  itself : ∀ name e, c.reference? name = some e → e = .variable name
  ne_empty : ∀ name, (c.reference? name).isSome = true → name ≠ ""
  defined : ∀ name, (c.definition? name).isSome = true → (c.reference? name).isSome = true
  columns : ∀ column name, c.variableOf? column = some name →
    column ≠ "" ∧ (c.reference? name).isSome = true

theorem referenced_empty : Referenced {} where
  names _ := iff_of_false nofun List.not_mem_nil
  itself _ _ h := by cases h
  ne_empty _ h := by cases h
  defined _ h := by cases h
  columns _ _ h := by cases h

theorem keepReference_of_isSome {name : String} (h : (c.reference? name).isSome = true) :
    c.keepReference name = c :=
  if_pos h

theorem reference?_keepReference {name other : String} {e : Expr} :
    (c.keepReference name).reference? other = some e
      ↔ c.reference? other = some e
        ∨ c.reference? other = none ∧ other = name ∧ e = .variable name := by
  by_cases hname : (c.reference? name).isSome = true
  · rw [keepReference_of_isSome hname]
    refine (or_iff_left ?_).symm
    rintro ⟨hnone, rfl, -⟩
    rw [hnone] at hname
    cases hname
  · have hkept : (c.keepReference name).reference? other
        = if other = name then some (.variable name) else c.reference? other := by
      rw [keepReference, if_neg hname]
      exact lookup_cons_ite ..
    rw [hkept]
    by_cases h : other = name
    · subst h
      rw [Option.not_isSome_iff_eq_none.mp hname]
      simp [eq_comm]
    · simp [h]

theorem isSome_reference?_keepReference {name other : String} :
    ((c.keepReference name).reference? other).isSome = true
      ↔ other = name ∨ (c.reference? other).isSome = true := by
  simp only [Option.isSome_iff_exists, reference?_keepReference]
  constructor
  · rintro ⟨e, hold | ⟨-, rfl, -⟩⟩
    · exact Or.inr ⟨e, hold⟩
    · exact Or.inl rfl
  · rintro (rfl | ⟨e, hold⟩)
    · cases h : c.reference? other with
      | some e => exact ⟨e, Or.inl rfl⟩
      | none => exact ⟨_, Or.inr ⟨rfl, rfl, rfl⟩⟩
    · exact ⟨e, Or.inl hold⟩

theorem reference?_congr (h : c'.references = c.references) (name : String) :
    c'.reference? name = c.reference? name := by
  unfold reference?
  rw [h]

theorem definition?_congr (h : c'.definitions = c.definitions) (name : String) :
    c'.definition? name = c.definition? name := by
  unfold definition?
  rw [h]

/-- The reference to a name is kept, which is the only one that can be new
in the pool, defined anew, or hold a column that it did not hold. -/
theorem Referenced.of_kept (h : c.Referenced) {name : String} (hname : name ≠ "")
    (hnames : ∀ n, n ∈ c'.scope.pool.names ↔ n = name ∨ n ∈ c.scope.pool.names)
    (hreferences : c'.references = (c.keepReference name).references)
    (hdefined : ∀ n, (c'.definition? n).isSome = true →
      n = name ∨ (c.definition? n).isSome = true)
    (hcolumns : ∀ column n, c'.variableOf? column = some n →
      (column ≠ "" ∧ n = name) ∨ c.variableOf? column = some n) : c'.Referenced := by
  have hkept : ∀ n, c'.reference? n = (c.keepReference name).reference? n :=
    reference?_congr hreferences
  have hsome : ∀ n, (c'.reference? n).isSome = true ↔ n = name ∨ (c.reference? n).isSome = true := by
    intro n
    rw [hkept n]
    exact isSome_reference?_keepReference
  refine ⟨?_, ?_, ?_, ?_, ?_⟩
  · intro n
    rw [hsome n, hnames n, h.names n]
  · intro n e he
    rw [hkept n] at he
    rcases reference?_keepReference.mp he with hold | ⟨-, rfl, rfl⟩
    · exact h.itself n e hold
    · rfl
  · intro n hn
    rcases (hsome n).mp hn with rfl | hold
    · exact hname
    · exact h.ne_empty n hold
  · intro n hn
    exact (hsome n).mpr ((hdefined n hn).imp_right (h.defined n))
  · intro column n hheld
    rcases hcolumns column n hheld with ⟨hcolumn, heq⟩ | hold
    · exact ⟨hcolumn, (hsome n).mpr (Or.inl heq)⟩
    · obtain ⟨hcolumn, href⟩ := h.columns column n hold
      exact ⟨hcolumn, (hsome n).mpr (Or.inr href)⟩

theorem Naming.referenced (h : c.Naming c') (hc : c.Referenced) : c'.Referenced := by
  cases h with
  | same scope references definitions =>
      refine ⟨?_, ?_, ?_, ?_, ?_⟩
      · intro name
        rw [reference?_congr references, scope]
        exact hc.names name
      · intro name e
        rw [reference?_congr references]
        exact hc.itself name e
      · intro name
        rw [reference?_congr references]
        exact hc.ne_empty name
      · intro name
        rw [reference?_congr references, definition?_congr definitions]
        exact hc.defined name
      · intro column name
        rw [reference?_congr references, variableOf?_of_same (congrArg Scope.bindings scope)]
        exact hc.columns column name
  | @took name ne_empty names bindings references definitions =>
      refine hc.of_kept ne_empty names references ?_ ?_
      · intro n hn
        rcases definitions with hsame | ⟨literal, hnew⟩
        · rw [definition?_congr hsame] at hn
          exact Or.inr hn
        · rw [definition?, hnew, lookup_cons_ite] at hn
          split at hn
          · next heq => exact Or.inl heq
          · exact Or.inr hn
      · intro other n hheld
        rcases bindings with hsame | ⟨column, hcolumn, hnew⟩
        · rw [variableOf?_of_same hsame] at hheld
          exact Or.inr hheld
        · rw [variableOf?_of_binding hnew] at hheld
          split at hheld
          · next heq => exact Or.inl ⟨heq ▸ hcolumn, (Option.some.inj hheld).symm⟩
          · exact Or.inr hheld
  | @found column name held scope references definitions =>
      obtain ⟨-, href⟩ := hc.columns column name held
      refine hc.of_kept (hc.ne_empty name href) ?_ references ?_ ?_
      · intro n
        rw [scope, iff_or_self]
        rintro rfl
        exact (hc.names n).mp href
      · intro n hn
        rw [definition?_congr definitions] at hn
        exact Or.inr hn
      · intro other n hheld
        rw [variableOf?_of_same (congrArg Scope.bindings scope)] at hheld
        exact Or.inr hheld
  | @bound column name ne_empty taken scope references definitions =>
      have href := (hc.names name).mpr taken
      refine hc.of_kept (hc.ne_empty name href) ?_ ?_ ?_ ?_
      · intro n
        rw [scope, Scope.pool_binding, iff_or_self]
        rintro rfl
        exact taken
      · rw [keepReference_of_isSome href, references]
      · intro n hn
        rw [definition?_congr definitions] at hn
        exact Or.inr hn
      · intro other n hheld
        rw [variableOf?_of_binding (congrArg Scope.bindings scope)] at hheld
        split at hheld
        · next heq => exact Or.inl ⟨heq ▸ ne_empty, (Option.some.inj hheld).symm⟩
        · exact Or.inr hheld

/-- The reference to a name is the same ever after. -/
theorem Naming.reference?_eq_some (h : c.Naming c') {name : String} {e : Expr}
    (hname : c.reference? name = some e) : c'.reference? name = some e := by
  cases h with
  | same _ references => rw [reference?_congr references, hname]
  | took _ _ _ references =>
      rw [reference?_congr references]
      exact reference?_keepReference.mpr (Or.inl hname)
  | found _ _ references =>
      rw [reference?_congr references]
      exact reference?_keepReference.mpr (Or.inl hname)
  | bound _ _ _ references => rw [reference?_congr references, hname]

/-- Bindings are only put in front of those that there are. -/
theorem Naming.bindings_suffix (h : c.Naming c') : c.scope.bindings <:+ c'.scope.bindings := by
  cases h with
  | same scope => exact scope ▸ List.suffix_rfl
  | took _ _ bindings =>
      rcases bindings with hsame | ⟨column, -, hnew⟩
      · exact hsame ▸ List.suffix_rfl
      · exact hnew ▸ List.suffix_cons _ _
  | found _ scope => exact scope ▸ List.suffix_rfl
  | bound _ _ scope => exact scope ▸ List.suffix_cons _ _

end Context

/-! ## Runs -/

theorem Context.Reaches.referenced {c c' : Context} (h : c.Reaches c') (hc : c.Referenced) :
    c'.Referenced :=
  h.keeps Context.Referenced (fun _ _ _ _ houtcome => houtcome.naming.referenced) hc

theorem Context.Reaches.reference?_eq_some {c c' : Context} (h : c.Reaches c') {name : String}
    {e : Expr} (hname : c.reference? name = some e) : c'.reference? name = some e :=
  h.keeps (·.reference? name = some e)
    (fun _ _ _ _ houtcome => houtcome.naming.reference?_eq_some) hname

namespace Call

theorem isOk_bindColumn (column name : String) (c : Context) :
    ((Call.bindColumn column name).step c).1.isOk = true
      ↔ column ≠ "" ∧ name ∈ c.scope.pool.names := by
  rw [step_eq, perform, bind_apply, Build.bindColumn_apply]
  by_cases hcolumn : column = ""
  · rw [if_pos hcolumn]
    exact iff_of_false Bool.false_ne_true fun h => h.1 hcolumn
  · rw [if_neg hcolumn]
    by_cases hname : c.scope.contains name = true
    · rw [if_pos hname]
      exact iff_of_true rfl ⟨hcolumn, (NamePool.contains_iff _ _).mp hname⟩
    · rw [if_neg hname]
      exact iff_of_false Bool.false_ne_true fun h => hname ((NamePool.contains_iff _ _).mpr h.2)

/-! ## The headline theorem -/

/-- In every reached context the names with a reference are those of the
pool, and they cover all that is defined or holds a column. A column can be
bound to just these names, and whatever is called later, a name that has a
reference keeps it. -/
theorem references_cover_names (calls : List Call) :
    let c := (run calls {}).2
    c.Referenced
      ∧ (∀ column name, ((Call.bindColumn column name).step c).1.isOk = true
          ↔ column ≠ "" ∧ (c.reference? name).isSome = true)
      ∧ ∀ later name e, c.reference? name = some e →
          (run (calls ++ later) {}).2.reference? name = some e := by
  intro c
  have hc : c.Referenced := Context.Reaches.referenced ⟨calls, rfl⟩ Context.referenced_empty
  refine ⟨hc, ?_, ?_⟩
  · intro column name
    rw [isOk_bindColumn, hc.names name]
  · intro later name e h
    rw [run_append]
    exact Context.Reaches.reference?_eq_some ⟨later, rfl⟩ h

-- The column goes from one variable to the next, and the first can still be bound to it.
example :
    let calls : List Call :=
      [.addInput (.ofKind .float32) "x", .addIntermediate (.ofKind .float32) "x"]
    let c := (run calls {}).2
    c.variableOf? "x" = some "x1" ∧ ((Call.bindColumn "x" "x").step c).1.isOk = true := by
  decide +kernel

end Call

end ModelExport
