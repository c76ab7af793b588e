import ModelExport.Proofs.Pipeline.Contribution

/-!
# The variables of a scorer

Before the mapper has its say, its scorer takes a variable for each of the
mapper's columns: new ones, all different, that start with neutral values
(`Scorer.Declares`). From then on each column is held by its variable, if
the columns have different names, and what other columns are held by does
not change. The turn of a scorer is in two parts, the declarations and the
mapper (`Scorer.Turn`). In the plan of an export it comes behind the turns
of the walk (`Exporter.turn_cases`).
-/

namespace ModelExport

/-- A column of a mapper, with the variable that it is given and the kind
of its elements. -/
structure Slot where
  column : Column
  name : String
  kind : ElementKind

/-- The statement that introduces the variable with the neutral value. -/
def Slot.introduction (slot : Slot) : Expr :=
  .bindOne slot.name (.literal (Scorer.neutral slot.column.type slot.kind))

namespace Scorer

/-! ## Declarations -/

/-- Each column gets a new variable, which is introduced at the end of the
body and holds the column from then on. -/
structure Declares (c : Context) (columns : List Column) (slots : List Slot) (c' : Context) :
    Prop where
  each : slots.map (·.column) = columns
  kinds : ∀ slot ∈ slots, slot.column.type.rawKind.elementKind? = some slot.kind
  fresh : ∀ slot ∈ slots, slot.name ∉ c.scope.pool.names
  nodup : (slots.map (·.name)).Nodup
  body : c'.body = c.body ++ slots.map Slot.introduction
  inputs : c'.inputs = c.inputs
  outputs : c'.outputs = c.outputs
  held : (columns.map (·.name)).Nodup →
    ∀ slot ∈ slots, c'.variableOf? slot.column.name = some slot.name
  others : ∀ column ∉ columns.map (·.name), c'.variableOf? column = c.variableOf? column

theorem declares_nil (c : Context) : Declares c [] [] c where
  each := rfl
  kinds _ h := absurd h List.not_mem_nil
  fresh _ h := absurd h List.not_mem_nil
  nodup := List.nodup_nil
  body := (List.append_nil _).symm
  inputs := rfl
  outputs := rfl
  held _ _ h := absurd h List.not_mem_nil
  others _ _ := rfl

end Scorer

theorem Context.variableOf?_withIntermediate (c : Context) (column : String) (type : Descriptor)
    (other : String) :
    (c.withIntermediate column type).variableOf? other
      = if other = column then some (c.fresh column) else c.variableOf? other :=
  variableOf?_of_binding (by simp [withIntermediate, Scope.binding]) other

namespace Build

theorem elementKind_eq_ok {raw : RawKind} {kind : ElementKind} {c c' : Context}
    (h : elementKind raw c = .ok kind c') : c = c' ∧ raw.elementKind? = some kind := by
  unfold elementKind at h
  cases hkind : raw.elementKind? with
  | none =>
      rw [hkind] at h
      cases h
  | some k =>
      rw [hkind] at h
      injection h with hanswer hcontext
      exact ⟨hcontext, congrArg some hanswer⟩

theorem addIntermediate_eq_ok {type : ColumnType} {column name : String} {c c' : Context}
    (h : addIntermediate type column c = .ok name c') :
    ∃ d, name = c.fresh column ∧ c' = c.withIntermediate column d := by
  rw [addIntermediate_apply] at h
  split at h
  · cases h
  · cases hd : type.descriptor? with
    | none =>
        rw [hd] at h
        cases h
    | some d =>
        rw [hd] at h
        injection h with hanswer hcontext
        exact ⟨d, hanswer.symm, hcontext.symm⟩

end Build

namespace Scorer

section Cons

variable {column : Column} {columns : List Column} {type : Descriptor} {kind : ElementKind}
  {c c' : Context}

/-- With a variable for one more column of the mapper. -/
def declaring (c : Context) (column : Column) (type : Descriptor) (kind : ElementKind) : Context :=
  { c.withIntermediate column.name type with
    body := c.body ++ [Slot.introduction ⟨column, c.fresh column.name, kind⟩] }

@[simp] theorem body_declaring :
    (declaring c column type kind).body
      = c.body ++ [Slot.introduction ⟨column, c.fresh column.name, kind⟩] := rfl

@[simp] theorem inputs_declaring : (declaring c column type kind).inputs = c.inputs := by
  simp [declaring, Context.withIntermediate]

@[simp] theorem outputs_declaring : (declaring c column type kind).outputs = c.outputs := by
  simp [declaring, Context.withIntermediate]

@[simp] theorem names_declaring :
    (declaring c column type kind).scope.pool.names
      = c.fresh column.name :: c.scope.pool.names := by
  simp [declaring, Context.withIntermediate, Context.fresh]

theorem variableOf?_declaring (other : String) :
    (declaring c column type kind).variableOf? other
      = if other = column.name then some (c.fresh column.name) else c.variableOf? other :=
  c.variableOf?_withIntermediate column.name type other

theorem declareOutput_eq_ok {name : String} (h : declareOutput column c = .ok name c') :
    ∃ type kind, column.type.rawKind.elementKind? = some kind ∧ name = c.fresh column.name
      ∧ c' = declaring c column type kind := by
  obtain ⟨kind, c₁, hkind, h⟩ := bind_eq_ok h
  obtain ⟨rfl, helements⟩ := Build.elementKind_eq_ok hkind
  obtain ⟨name, c₂, hname, h⟩ := bind_eq_ok h
  obtain ⟨type, rfl, rfl⟩ := Build.addIntermediate_eq_ok hname
  injection h with hanswer hcontext
  refine ⟨type, kind, helements, hanswer.symm, ?_⟩
  rw [← hcontext, declaring]
  simp [Context.withIntermediate, Slot.introduction]

theorem declares_cons {slots : List Slot} (hkind : column.type.rawKind.elementKind? = some kind)
    (h : Declares (declaring c column type kind) columns slots c') :
    Declares c (column :: columns) (⟨column, c.fresh column.name, kind⟩ :: slots) c' := by
  have hlater : ∀ slot ∈ slots,
      slot.name ≠ c.fresh column.name ∧ slot.name ∉ c.scope.pool.names := by
    intro slot hslot
    have hfresh := h.fresh slot hslot
    rw [names_declaring] at hfresh
    exact List.ne_and_not_mem_of_not_mem_cons hfresh
  refine
    { each := by rw [List.map_cons, h.each]
      kinds := List.forall_mem_cons.mpr ⟨hkind, h.kinds⟩
      fresh := List.forall_mem_cons.mpr
        ⟨c.fresh_not_mem column.name, fun slot hslot => (hlater slot hslot).2⟩
      nodup := List.nodup_cons.mpr ⟨?_, h.nodup⟩
      body := by rw [h.body, body_declaring, List.append_assoc]; rfl
      inputs := by rw [h.inputs, inputs_declaring]
      outputs := by rw [h.outputs, outputs_declaring]
      held := ?_
      others := ?_ }
  · intro hmem
    obtain ⟨slot, hslot, heq⟩ := List.mem_map.mp hmem
    exact (hlater slot hslot).1 heq
  · intro hnodup
    obtain ⟨hnew, hnodup⟩ := List.nodup_cons.mp hnodup
    refine List.forall_mem_cons.mpr ⟨?_, h.held hnodup⟩
    rw [h.others column.name hnew, variableOf?_declaring, if_pos rfl]
  · intro other hother
    obtain ⟨hne, hother⟩ := List.ne_and_not_mem_of_not_mem_cons hother
    rw [h.others other hother, variableOf?_declaring, if_neg hne]

theorem declareOutputs_eq_ok {names : List String} (h : declareOutputs columns c = .ok names c') :
    ∃ slots, Declares c columns slots c' ∧ names = slots.map (·.name) := by
  induction columns generalizing c names with
  | nil =>
      injection h with hnames hcontext
      subst hnames hcontext
      exact ⟨[], declares_nil c, rfl⟩
  | cons column columns ih =>
      obtain ⟨name, c₁, hfirst, h⟩ := bind_eq_ok h
      obtain ⟨rest, c₂, hrest, h⟩ := bind_eq_ok h
      injection h with hnames hcontext
      subst hnames hcontext
      obtain ⟨type, kind, hkind, rfl, rfl⟩ := declareOutput_eq_ok hfirst
      obtain ⟨slots, hdeclares, rfl⟩ := ih hrest
      exact ⟨_, declares_cons hkind hdeclares, rfl⟩

end Cons

/-! ## The turn of a scorer -/

/-- It is the turn of the mapper: the stages of the plan have contributed
and left the first context, and the scorer has declared the variables of
the names, which gave the second. -/
structure Turn (s : Scorer) (p : Plan) (inputsToDrop : NameSet) (c : Context)
    (names : List String) (c' : Context) : Prop where
  reached : p.upTo inputsToDrop p.stages {} = .ok () c
  declared : declareOutputs s.mapper.schema.visible c = .ok names c'

theorem emit_eq_ok {s : Scorer} {c c'' : Context} (h : s.emit c = .ok () c'') :
    ∃ names c', declareOutputs s.mapper.schema.visible c = .ok names c'
      ∧ s.mapper.emit names c' = .ok () c'' :=
  bind_eq_ok h

theorem emit_of_exporter? {s : Scorer} {emit : Build Unit} (h : s.toStage.exporter? = some emit) :
    emit = s.emit := by
  unfold Stage.exporter? toStage at h
  dsimp only at h
  split at h
  · exact (Option.some.inj h).symm
  · cases h

end Scorer

/-- In the plan of an export it is the turn of a stage of the walk, or of
the scorer behind them all. -/
theorem Exporter.turn_cases {x : Exporter} {p : Pipeline} {predictor : Option Predictor}
    {roles : Option Roles} {before : List Stage} {stage : Stage} {emit : Build Unit} {c : Context}
    (h : (planFor p (x.chosen? p predictor roles)).Turn x.options.inputsToDrop before stage
      emit c) :
    p.walk.Turn x.options.inputsToDrop before stage emit c
      ∨ ∃ pr ∈ predictor, ∃ scorer ∈ x.resolver pr p.terminal roles,
        x.chosen? p predictor roles = some scorer.toStage ∧ emit = scorer.emit
          ∧ p.walk.upTo x.options.inputsToDrop p.walk.stages {} = .ok () c := by
  cases hchosen : x.chosen? p predictor roles with
  | none =>
      rw [hchosen] at h
      exact Or.inl h
  | some last =>
      rw [hchosen] at h
      rcases h.of_pushTerminal with hearlier | ⟨-, rfl, hreached⟩
      · exact Or.inl hearlier
      · obtain ⟨pr, scorer, hpr, hscorer, rfl, -⟩ := chosen?_eq_some hchosen
        exact Or.inr ⟨pr, hpr, scorer, hscorer, rfl, Scorer.emit_of_exporter? h.exporter, hreached⟩

end ModelExport
