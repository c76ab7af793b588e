import Mathlib.Data.List.Forall2
import ModelExport.Proofs.Pipeline.Replay

/-!
# What the passes of a replay leave behind

The pass over the inputs registers one parameter for each column, in
order, and in a new context a column keeps its name unless an earlier one
took it (`Replay.inputs_eq_ok`). The pass over the outputs copies variables:
for each column there is a `Copy`, from the variable that holds the column
to an output with a name of its own (`Replay.outputs_eq_ok`). Which variable
that is was settled before the pass started, because the pass binds only
columns that no variable holds, and it binds those to new variables
(`Sourced`, `Copied`).
-/

namespace ModelExport

/-- The column has a descriptor, and it is the type of the parameter. -/
def Column.Types (column : Column) (parameter : Parameter) : Prop :=
  column.type.descriptor? = some parameter.type

/-! ## What one step adds -/

namespace Context

variable (c : Context) (column : String)

theorem fresh_of_free {column : String} (h : column ∉ c.scope.pool.names) :
    c.fresh column = column :=
  if_neg fun htaken => h ((NamePool.contains_iff _ _).mp htaken)

section Input

variable (type : Descriptor)

@[simp] theorem inputs_withInput :
    (c.withInput column type).inputs = c.inputs ++ [{ name := c.fresh column, type }] := by
  simp [withInput]

@[simp] theorem outputs_withInput : (c.withInput column type).outputs = c.outputs := by
  simp [withInput]

@[simp] theorem body_withInput : (c.withInput column type).body = c.body := by
  simp [withInput]

@[simp] theorem names_withInput :
    (c.withInput column type).scope.pool.names = c.fresh column :: c.scope.pool.names := by
  simp [withInput, fresh]

theorem variableOf?_withInput (other : String) :
    (c.withInput column type).variableOf? other
      = if other = column then some (c.fresh column) else c.variableOf? other :=
  variableOf?_of_binding (by simp [withInput, Scope.binding]) other

end Input

section Holding

@[simp] theorem inputs_holding : (c.holding column).inputs = c.inputs := by
  unfold holding
  split <;> simp [withColumn]

@[simp] theorem outputs_holding : (c.holding column).outputs = c.outputs := by
  unfold holding
  split <;> simp [withColumn]

@[simp] theorem body_holding : (c.holding column).body = c.body := by
  unfold holding
  split <;> simp [withColumn]

@[simp] theorem functions_holding : (c.holding column).functions = c.functions := by
  unfold holding
  split <;> simp [withColumn]

theorem names_subset_holding : c.scope.pool.names ⊆ (c.holding column).scope.pool.names := by
  unfold holding
  split <;> simp [withColumn]

theorem holder_mem_of_none {column : String} (h : c.variableOf? column = none) :
    c.holder column ∈ (c.holding column).scope.pool.names := by
  simp [holding_of_none c h, withColumn, holder, h, fresh]

theorem holder_not_mem_of_none {column : String} (h : c.variableOf? column = none) :
    c.holder column ∉ c.scope.pool.names := by
  rw [holder, h]
  exact c.fresh_not_mem column

theorem variableOf?_holding_of_ne {column other : String} (h : other ≠ column) :
    (c.holding column).variableOf? other = c.variableOf? other := by
  cases hcolumn : c.variableOf? column with
  | some held =>
      rw [holding_of_some c hcolumn]
      exact variableOf?_of_same (by rw [scope_keepReference]) other
  | none => rw [holding_of_none c hcolumn, variableOf?_withColumn, if_neg h]

theorem variableOf?_holding_of_some {other name : String} (h : c.variableOf? other = some name) :
    (c.holding column).variableOf? other = some name := by
  by_cases hsame : other = column
  · subst hsame
    rw [variableOf?_holding, holder, h]
    rfl
  · rw [c.variableOf?_holding_of_ne hsame, h]

end Holding

section Output

variable (type : Descriptor)

/-- The name of the output that the column gets. -/
def outputName : String := (c.holding column).fresh column

@[simp] theorem inputs_withOutputOf : (c.withOutputOf column type).inputs = c.inputs := by
  simp [withOutputOf, withOutput]

@[simp] theorem outputs_withOutputOf :
    (c.withOutputOf column type).outputs
      = c.outputs ++ [{ name := c.outputName column, type }] := by
  simp [withOutputOf, withOutput, outputName]

@[simp] theorem body_withOutputOf :
    (c.withOutputOf column type).body
      = c.body ++ [.assign (c.outputName column) (.variable (c.holder column))] := by
  simp [withOutputOf, withOutput, outputName]

@[simp] theorem functions_withOutputOf :
    (c.withOutputOf column type).functions = c.functions := by
  simp [withOutputOf, withOutput]

@[simp] theorem names_withOutputOf :
    (c.withOutputOf column type).scope.pool.names
      = c.outputName column :: (c.holding column).scope.pool.names := by
  simp [withOutputOf, withOutput, outputName, fresh]

theorem variableOf?_withOutputOf (other : String) :
    (c.withOutputOf column type).variableOf? other = (c.holding column).variableOf? other :=
  variableOf?_of_same (by simp [withOutputOf, withOutput]) other

theorem outputName_not_mem : c.outputName column ∉ (c.holding column).scope.pool.names :=
  fresh_not_mem _ _

end Output

end Context

/-! ## The pass over the inputs -/

namespace Replay

theorem inputs_cons_eq_ok {column : Column} {columns : List Column} {c c' : Context}
    (h : inputs (column :: columns) c = .ok () c') :
    ∃ d, column.type.descriptor? = some d
      ∧ inputs columns (c.withInput column.name d) = .ok () c' := by
  rw [inputs_cons] at h
  obtain ⟨name, c₁, hinput, hrest⟩ := bind_eq_ok h
  cases hcolumn : column.refusal? with
  | some e =>
      rw [input_of_refused c hcolumn] at hinput
      cases hinput
  | none =>
      obtain ⟨hname, d, hd⟩ := Column.refusal?_eq_none.mp hcolumn
      rw [input_of_typed c hname hd] at hinput
      cases hinput
      exact ⟨d, hd, hrest⟩

/-- One parameter for each of the columns, with the name of its column
where the names are different and free. -/
theorem inputs_eq_ok {columns : List Column} {c c' : Context}
    (h : inputs columns c = .ok () c') :
    ∃ added, c'.inputs = c.inputs ++ added ∧ c'.outputs = c.outputs ∧ c'.body = c.body
      ∧ List.Forall₂ Column.Types columns added
      ∧ ((columns.map (·.name)).Nodup → (∀ column ∈ columns, column.name ∉ c.scope.pool.names) →
          added.map (·.name) = columns.map (·.name)) := by
  induction columns generalizing c with
  | nil =>
      obtain rfl : c = c' := by
        injection h
      exact ⟨[], (List.append_nil _).symm, rfl, rfl, .nil, fun _ _ => rfl⟩
  | cons column columns ih =>
      obtain ⟨d, hd, hrest⟩ := inputs_cons_eq_ok h
      obtain ⟨added, hinputs, houtputs, hbody, htyped, hnamed⟩ := ih hrest
      refine ⟨{ name := c.fresh column.name, type := d } :: added, ?_, ?_, ?_, .cons hd htyped, ?_⟩
      · rw [hinputs, Context.inputs_withInput, List.append_assoc]
        rfl
      · rw [houtputs, Context.outputs_withInput]
      · rw [hbody, Context.body_withInput]
      · intro hnodup hfree
        obtain ⟨hnew, hnodup⟩ := List.nodup_cons.mp hnodup
        have hname : c.fresh column.name = column.name :=
          c.fresh_of_free (hfree column (List.mem_cons_self ..))
        have hlater : ∀ later ∈ columns,
            later.name ∉ (c.withInput column.name d).scope.pool.names := by
          intro later hmem htaken
          rw [Context.names_withInput, hname] at htaken
          rcases List.mem_cons.mp htaken with heq | htaken
          · exact hnew (List.mem_map.mpr ⟨later, hmem, heq⟩)
          · exact hfree later (List.mem_cons_of_mem _ hmem) htaken
        rw [List.map_cons, List.map_cons, hname, hnamed hnodup hlater]

end Replay

/-! ## The pass over the outputs -/

/-- A column, its output and the variable that is copied to the output. -/
structure Copy where
  column : Column
  output : Parameter
  source : String

def Copy.statement (copy : Copy) : Expr := .assign copy.output.name (.variable copy.source)

/-- The variable is the one that holds the column, or a new one if none
does: one that is not taken in the context and is not among the outputs. -/
def Sourced (c : Context) (outputs : List String) (column source : String) : Prop :=
  c.variableOf? column = some source
    ∨ c.variableOf? column = none ∧ source ∉ c.scope.pool.names ∧ source ∉ outputs

/-- The columns are copied to outputs, one after the other, from the
variables that hold them in the context or else from new ones, a different
one for each name. The outputs have different names, none of which is taken
in the context. -/
structure Copied (c : Context) (columns : List Column) (copies : List Copy) : Prop where
  each : copies.map (·.column) = columns
  typed : ∀ copy ∈ copies, copy.column.Types copy.output
  sourced : ∀ copy ∈ copies, Sourced c (copies.map (·.output.name)) copy.column.name copy.source
  apart : ∀ a ∈ copies, ∀ b ∈ copies,
    c.variableOf? a.column.name = none → c.variableOf? b.column.name = none →
      (a.source = b.source ↔ a.column.name = b.column.name)
  fresh : ∀ copy ∈ copies, copy.output.name ∉ c.scope.pool.names
  nodup : (copies.map (·.output.name)).Nodup

theorem copied_nil (c : Context) : Copied c [] [] where
  each := rfl
  typed _ h := absurd h List.not_mem_nil
  sourced _ h := absurd h List.not_mem_nil
  apart _ h := absurd h List.not_mem_nil
  fresh _ h := absurd h List.not_mem_nil
  nodup := List.nodup_nil

theorem Sourced.eq_of_held {c : Context} {outputs : List String} {column source held : String}
    (h : Sourced c outputs column source) (hheld : c.variableOf? column = some held) :
    source = held := by
  rcases h with hsource | ⟨hnone, -⟩
  · exact Option.some.inj (hsource.symm.trans hheld)
  · rw [hheld] at hnone
    cases hnone

section Cons

variable {c : Context} {column : String} {type : Descriptor} {outputs : List String}
  {other source : String}

/-- Behind the first output, a column without a variable in front of it is
the column of that output or is still without one. -/
theorem Sourced.cases_of_none (h : Sourced (c.withOutputOf column type) outputs other source)
    (hnone : c.variableOf? other = none) :
    (other = column ∧ source = c.holder column)
      ∨ (other ≠ column ∧ (c.withOutputOf column type).variableOf? other = none
        ∧ source ∉ (c.withOutputOf column type).scope.pool.names ∧ source ∉ outputs) := by
  unfold Sourced at h
  by_cases hsame : other = column
  · subst hsame
    rw [Context.variableOf?_withOutputOf, Context.variableOf?_holding] at h
    rcases h with heq | ⟨hunheld, -⟩
    · exact Or.inl ⟨rfl, (Option.some.inj heq).symm⟩
    · cases hunheld
  · have hstill : (c.withOutputOf column type).variableOf? other = none := by
      rw [Context.variableOf?_withOutputOf, c.variableOf?_holding_of_ne hsame, hnone]
    rw [hstill] at h
    rcases h with heq | ⟨-, hnew⟩
    · cases heq
    · exact Or.inr ⟨hsame, hstill, hnew⟩

theorem Sourced.eq_holder_iff (h : Sourced (c.withOutputOf column type) outputs other source)
    (hcolumn : c.variableOf? column = none) (hother : c.variableOf? other = none) :
    source = c.holder column ↔ other = column := by
  rcases h.cases_of_none hother with ⟨hname, hsource⟩ | ⟨hname, -, hnames, -⟩
  · exact iff_of_true hsource hname
  · refine iff_of_false ?_ hname
    rintro rfl
    rw [Context.names_withOutputOf] at hnames
    exact hnames (List.mem_cons_of_mem _ (c.holder_mem_of_none hcolumn))

theorem sourced_holder
    (hfresh : ∀ output ∈ outputs, output ∉ (c.withOutputOf column type).scope.pool.names) :
    Sourced c (c.outputName column :: outputs) column (c.holder column) := by
  cases hheld : c.variableOf? column with
  | some held => exact Or.inl (by rw [Context.holder, hheld]; rfl)
  | none =>
      have hmem := c.holder_mem_of_none hheld
      have hne : c.holder column ≠ c.outputName column :=
        fun heq => c.outputName_not_mem column (heq ▸ hmem)
      have hlater : c.holder column ∉ outputs := by
        intro houtput
        refine hfresh _ houtput ?_
        rw [Context.names_withOutputOf]
        exact List.mem_cons_of_mem _ hmem
      exact Or.inr ⟨hheld, c.holder_not_mem_of_none hheld,
        List.not_mem_cons_of_ne_of_not_mem hne hlater⟩

/-- What is new behind the first output is new in front of it. -/
theorem Sourced.of_withOutputOf
    (hfresh : ∀ output ∈ outputs, output ∉ (c.withOutputOf column type).scope.pool.names)
    (h : Sourced (c.withOutputOf column type) outputs other source) :
    Sourced c (c.outputName column :: outputs) other source := by
  cases hheld : c.variableOf? other with
  | some held =>
      have hstill : (c.withOutputOf column type).variableOf? other = some held := by
        rw [Context.variableOf?_withOutputOf, c.variableOf?_holding_of_some column hheld]
      rcases h with heq | ⟨hnone, -⟩
      · rw [hstill] at heq
        exact Or.inl (hheld.trans heq)
      · rw [hstill] at hnone
        cases hnone
  | none =>
      rcases h.cases_of_none hheld with ⟨rfl, rfl⟩ | ⟨-, -, hnames, houtputs⟩
      · exact sourced_holder hfresh
      · rw [Context.names_withOutputOf] at hnames
        obtain ⟨hne, hnames⟩ := List.ne_and_not_mem_of_not_mem_cons hnames
        exact Or.inr ⟨hheld, fun hmem => hnames (c.names_subset_holding column hmem),
          List.not_mem_cons_of_ne_of_not_mem hne houtputs⟩

/-- Two copies behind the first one. -/
theorem Copied.apart_of_withOutputOf {columns : List Column} {copies : List Copy}
    (h : Copied (c.withOutputOf column type) columns copies) {a b : Copy} (ha : a ∈ copies)
    (hb : b ∈ copies) (ha' : c.variableOf? a.column.name = none)
    (hb' : c.variableOf? b.column.name = none) :
    a.source = b.source ↔ a.column.name = b.column.name := by
  rcases (h.sourced a ha).cases_of_none ha' with ⟨haname, hasource⟩ | ⟨-, hastill, -⟩
  · rw [haname] at ha'
    rw [haname, hasource, eq_comm, (h.sourced b hb).eq_holder_iff ha' hb', eq_comm]
  · rcases (h.sourced b hb).cases_of_none hb' with ⟨hbname, hbsource⟩ | ⟨-, hbstill, -⟩
    · rw [hbname] at hb'
      rw [hbname, hbsource, (h.sourced a ha).eq_holder_iff hb' ha']
    · exact h.apart a ha b hb hastill hbstill

theorem Copied.cons {column : Column} {columns : List Column} {d : Descriptor}
    {copies : List Copy} (hd : column.type.descriptor? = some d)
    (h : Copied (c.withOutputOf column.name d) columns copies) :
    Copied c (column :: columns)
      ({ column
         output := { name := c.outputName column.name, type := d }
         source := c.holder column.name } :: copies) := by
  have hfresh : ∀ output ∈ copies.map (·.output.name),
      output ∉ (c.withOutputOf column.name d).scope.pool.names := by
    intro output hmem
    obtain ⟨copy, hcopy, rfl⟩ := List.mem_map.mp hmem
    exact h.fresh copy hcopy
  have houtput : c.outputName column.name ∉ copies.map (·.output.name) := by
    intro hmem
    refine hfresh _ hmem ?_
    rw [Context.names_withOutputOf]
    exact List.mem_cons_self ..
  refine
    { each := by rw [List.map_cons, h.each]
      typed := List.forall_mem_cons.mpr ⟨hd, h.typed⟩
      sourced := List.forall_mem_cons.mpr ⟨sourced_holder hfresh, fun copy hcopy =>
        (h.sourced copy hcopy).of_withOutputOf hfresh⟩
      apart := ?_
      fresh := List.forall_mem_cons.mpr ⟨?_, ?_⟩
      nodup := List.nodup_cons.mpr ⟨houtput, h.nodup⟩ }
  · intro a ha b hb ha' hb'
    rcases List.mem_cons.mp ha with rfl | ha <;> rcases List.mem_cons.mp hb with rfl | hb
    · exact iff_of_true rfl rfl
    · exact eq_comm.trans (((h.sourced b hb).eq_holder_iff ha' hb').trans eq_comm)
    · exact (h.sourced a ha).eq_holder_iff hb' ha'
    · exact h.apart_of_withOutputOf ha hb ha' hb'
  · intro hmem
    exact c.outputName_not_mem column.name (c.names_subset_holding _ hmem)
  · intro copy hcopy hmem
    refine h.fresh copy hcopy ?_
    rw [Context.names_withOutputOf]
    exact List.mem_cons_of_mem _ (c.names_subset_holding _ hmem)

end Cons

namespace Replay

theorem outputs_cons_eq_ok {column : Column} {columns : List Column} {c c' : Context}
    (h : outputs (column :: columns) c = .ok () c') :
    ∃ d, column.type.descriptor? = some d
      ∧ outputs columns (c.withOutputOf column.name d) = .ok () c' := by
  rw [outputs_cons] at h
  obtain ⟨name, c₁, houtput, hrest⟩ := bind_eq_ok h
  cases hcolumn : column.refusal? with
  | some e =>
      obtain ⟨c₂, hrefused⟩ := output_of_refused c hcolumn
      rw [hrefused] at houtput
      cases houtput
  | none =>
      obtain ⟨hname, d, hd⟩ := Column.refusal?_eq_none.mp hcolumn
      rw [output_of_typed c hname hd] at houtput
      cases houtput
      exact ⟨d, hd, hrest⟩

/-- One copy for each of the columns, and nothing else. -/
theorem outputs_eq_ok {columns : List Column} {c c' : Context}
    (h : outputs columns c = .ok () c') :
    ∃ copies, Copied c columns copies ∧ c'.inputs = c.inputs
      ∧ c'.outputs = c.outputs ++ copies.map (·.output)
      ∧ c'.body = c.body ++ copies.map Copy.statement := by
  induction columns generalizing c with
  | nil =>
      obtain rfl : c = c' := by
        injection h
      exact ⟨[], copied_nil c, rfl, (List.append_nil _).symm, (List.append_nil _).symm⟩
  | cons column columns ih =>
      obtain ⟨d, hd, hrest⟩ := outputs_cons_eq_ok h
      obtain ⟨copies, hcopied, hinputs, houtputs, hbody⟩ := ih hrest
      refine ⟨_, hcopied.cons hd, ?_, ?_, ?_⟩
      · rw [hinputs, Context.inputs_withOutputOf]
      · rw [houtputs, Context.outputs_withOutputOf, List.append_assoc]
        rfl
      · rw [hbody, Context.body_withOutputOf, List.append_assoc]
        rfl

theorem functions_of_outputs {columns : List Column} {c c' : Context}
    (h : outputs columns c = .ok () c') : c'.functions = c.functions := by
  induction columns generalizing c with
  | nil =>
      injection h with _ hcontext
      rw [hcontext]
  | cons column columns ih =>
      obtain ⟨d, -, hrest⟩ := outputs_cons_eq_ok h
      rw [ih hrest, Context.functions_withOutputOf]

end Replay

end ModelExport
