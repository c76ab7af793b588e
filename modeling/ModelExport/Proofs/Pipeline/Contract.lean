import ModelExport.Proofs.Context.Preservation
import ModelExport.Proofs.Pipeline.Contribution

/-!
# The contract of a stage

A stage is to bind what it shows: when it returns, each visible column of
its schema that is not seen in front of it is held by a variable
(`Build.Provides`). What is seen in front of it was bound before and is
bound still. So if the stages of a plan keep the contract, the induction
goes along them from the inputs, and behind the last one every column at
the end of the plan is held, unless it was dropped where the inputs were
registered (`Plan.containsColumn_behind`).

The pass over the outputs then looks up and does not allocate
(`Plan.OutputsHeld`), and what an output copies was bound by an input or by
a stage (`Plan.Binds`, `Plan.outputs_bound`).
-/

namespace ModelExport

/-! ## What outputs copy -/

namespace Context

theorem containsColumn_iff {c : Context} {column : String} :
    c.containsColumn column = true ↔ ∃ name, c.variableOf? column = some name :=
  Option.isSome_iff_exists

theorem mem_bindings_of_variableOf? {c : Context} {column name : String}
    (h : c.variableOf? column = some name) : (column, name) ∈ c.scope.bindings := by
  obtain ⟨front, back, hsplit, -⟩ := List.lookup_eq_some_iff.mp h
  rw [hsplit]
  exact List.mem_append_right _ (List.mem_cons_self ..)

/-- Each output is assigned from a variable that a column was bound to. -/
def CopiesBound (c : Context) : Prop :=
  ∀ output ∈ c.outputs, ∃ column source, (column, source) ∈ c.scope.bindings
    ∧ .assign output.name (.variable source) ∈ c.body

end Context

theorem Call.Outcome.copiesBound {c c' : Context} {call : Call}
    {answer : Except BuildError Answer} (h : Outcome c call answer c') (hc : c.CopiesBound) :
    c'.CopiesBound := by
  have hbindings := h.naming.bindings_suffix
  have hold : ∀ output ∈ c.outputs, ∃ column source, (column, source) ∈ c'.scope.bindings
      ∧ .assign output.name (.variable source) ∈ c'.body := by
    intro output houtput
    obtain ⟨column, source, hbound, hcopy⟩ := hc output houtput
    exact ⟨column, source, hbindings.subset hbound, h.grows.body.subset hcopy⟩
  intro output houtput
  cases h.writing with
  | nothing outputs => exact hold output (outputs ▸ houtput)
  | added outputs => exact hold output (outputs ▸ houtput)
  | introduced outputs => exact hold output (outputs ▸ houtput)
  | overwrote _ outputs => exact hold output (outputs ▸ houtput)
  | @put column source type held outputs body =>
      rw [outputs] at houtput
      rcases List.mem_append.mp houtput with hearlier | hnew
      · exact hold output hearlier
      · obtain rfl := List.mem_singleton.mp hnew
        refine ⟨column, source, hbindings.subset (Context.mem_bindings_of_variableOf? held), ?_⟩
        rw [body]
        exact List.mem_append_right _ (List.mem_cons_self ..)

theorem Context.Reaches.copiesBound {c c' : Context} (h : c.Reaches c') (hc : c.CopiesBound) :
    c'.CopiesBound :=
  h.keeps Context.CopiesBound (fun _ _ _ _ houtcome => houtcome.copiesBound) hc

/-! ## The passes and the columns -/

namespace Build

theorem lookupOrAllocate_of_held {c : Context} (hc : c.Referenced) {column name : String}
    (h : c.variableOf? column = some name) : lookupOrAllocate column c = .ok name c := by
  obtain ⟨hcolumn, href⟩ := hc.columns column name h
  rw [lookupOrAllocate_apply, if_neg hcolumn, h]
  dsimp only
  rw [Context.keepReference_of_isSome href]

end Build

namespace Replay

theorem containsColumn_inputs {columns : List Column} {c c' : Context}
    (h : inputs columns c = .ok () c') :
    ∀ column ∈ columns, c'.containsColumn column.name = true := by
  induction columns generalizing c with
  | nil => exact fun _ hcolumn => absurd hcolumn List.not_mem_nil
  | cons column columns ih =>
      obtain ⟨d, -, hrest⟩ := inputs_cons_eq_ok h
      have hfirst : (c.withInput column.name d).containsColumn column.name = true :=
        Context.containsColumn_iff.mpr
          ⟨_, by rw [Context.variableOf?_withInput, if_pos rfl]⟩
      have hreaches := (byCalls_inputs columns).reaches hrest
      exact List.forall_mem_cons.mpr ⟨hreaches.containsColumn hfirst, ih hrest⟩

/-- The pass over the outputs binds no column that is bound already. -/
theorem variableOf?_outputs {columns : List Column} {c c' : Context}
    (h : outputs columns c = .ok () c') {other name : String}
    (hheld : c.variableOf? other = some name) : c'.variableOf? other = some name := by
  induction columns generalizing c with
  | nil =>
      obtain rfl : c = c' := by
        injection h
      exact hheld
  | cons column columns ih =>
      obtain ⟨d, -, hrest⟩ := outputs_cons_eq_ok h
      refine ih hrest ?_
      rw [Context.variableOf?_withOutputOf]
      exact c.variableOf?_holding_of_some column.name hheld

end Replay

/-! ## Contracts -/

/-- When the contribution returns, each column that the schema shows and
that was not seen before is held by a variable. -/
def Build.Provides (b : Build Unit) (seen schema : Schema) (c : Context) : Prop :=
  ∀ c', b c = .ok () c' → ∀ column ∈ schema.visible,
    column.name ∉ seen.visible.map (·.name) → c'.containsColumn column.name = true

namespace Plan

section

variable (p : Plan) (inputsToDrop outputsToDrop : NameSet)

/-- The columns that are seen behind these stages, the first ones of the plan. -/
def seenBehind (before : List Stage) : Schema := Pipeline.terminal ⟨p.source, before⟩

/-- Each stage that has its turn provides the columns that it shows. -/
def KeepsContract : Prop :=
  ∀ before stage emit c, p.Turn inputsToDrop before stage emit c →
    emit.Provides (p.seenBehind before) stage.schema c

/-- The column was bound to the name when the inputs were registered or
while a stage contributed. -/
inductive Binds (column name : String) : Prop
  | input {c : Context} (h : Replay.inputs (p.inputColumns inputsToDrop) {} = .ok () c)
      (hbound : (column, name) ∈ c.scope.bindings)
  | stage {before : List Stage} {stage : Stage} {emit : Build Unit} {c c' : Context}
      {added : List (String × String)} (hturn : p.Turn inputsToDrop before stage emit c)
      (h : emit c = .ok () c') (hadded : c'.scope.bindings = added ++ c.scope.bindings)
      (hbound : (column, name) ∈ added)

/-- In the context behind the stages, a variable holds each visible column
at the end of the plan, unless the column is dropped as an input. The pass
over the outputs finds these variables, and looking them up changes
nothing. -/
structure OutputsHeld (finish : Context) : Prop where
  held : ∀ column ∈ p.terminal.visible, inputsToDrop.contains column.name = false →
    finish.containsColumn column.name = true
  found : ∀ before column c,
    before ++ [column] <+: p.outputColumns inputsToDrop outputsToDrop →
      Replay.outputs before finish = .ok () c → ∃ name,
        finish.variableOf? column.name = some name
          ∧ Build.lookupOrAllocate column.name c = .ok name c

end

variable {p : Plan} {inputsToDrop outputsToDrop : NameSet}

theorem mem_inputColumns {column : Column} :
    column ∈ p.inputColumns inputsToDrop
      ↔ column ∈ p.source.visible ∧ inputsToDrop.contains column.name = false := by
  simp [inputColumns, Schema.kept]

theorem mem_outputColumns {column : Column} :
    column ∈ p.outputColumns inputsToDrop outputsToDrop
      ↔ column ∈ p.terminal.visible ∧ outputsToDrop.contains column.name = false
        ∧ inputsToDrop.contains column.name = false := by
  simp [outputColumns, Schema.kept, and_comm]

theorem reaches_of_upTo (hscripted : ∀ s ∈ p.stages, s.Scripted) {before : List Stage}
    (hbefore : before <+: p.stages) {c : Context}
    (h : p.upTo inputsToDrop before {} = .ok () c) : Context.Reaches {} c := by
  have hcalls : ByCalls (p.upTo inputsToDrop before) :=
    (Replay.byCalls_inputs _).bind fun _ =>
      Replay.byCalls_stages fun s hs => hscripted s (hbefore.subset hs)
  exact hcalls.reaches h

theorem Turn.reaches {before : List Stage} {stage : Stage} {emit : Build Unit} {c c' : Context}
    (hturn : p.Turn inputsToDrop before stage emit c) (hscripted : ∀ s ∈ p.stages, s.Scripted)
    (h : emit c = .ok () c') : c.Reaches c' :=
  (hscripted stage hturn.mem emit hturn.exporter).reaches h

theorem containsColumn_behind (hscripted : ∀ s ∈ p.stages, s.Scripted)
    (hcontract : p.KeepsContract inputsToDrop) {before : List Stage}
    (hbefore : before <+: p.stages) {c : Context}
    (h : p.upTo inputsToDrop before {} = .ok () c) :
    ∀ column ∈ (p.seenBehind before).visible, inputsToDrop.contains column.name = false →
      c.containsColumn column.name = true := by
  refine holds_behind (fun before c => ∀ column ∈ (p.seenBehind before).visible,
    inputsToDrop.contains column.name = false → c.containsColumn column.name = true)
    ?_ ?_ hbefore h
  · intro c hinputs column hcolumn hkept
    exact Replay.containsColumn_inputs hinputs column (mem_inputColumns.mpr ⟨hcolumn, hkept⟩)
  · intro before stage emit c c' hturn hemit hearlier column hcolumn hkept
    have hschema : p.seenBehind (before ++ [stage]) = stage.schema :=
      Pipeline.terminal_push ⟨p.source, before⟩ stage
    rw [hschema] at hcolumn
    -- What was seen before the turn was bound before it and is bound still; the rest the stage
    -- provides.
    by_cases hseen : column.name ∈ (p.seenBehind before).visible.map (·.name)
    · obtain ⟨earlier, hmem, hname⟩ := List.mem_map.mp hseen
      have hbound := hearlier earlier hmem (hname ▸ hkept)
      rw [hname] at hbound
      exact (hturn.reaches hscripted hemit).containsColumn hbound
    · exact hcontract before stage emit c hturn c' hemit column hcolumn hseen

theorem binds_of_mem (hscripted : ∀ s ∈ p.stages, s.Scripted) {before : List Stage}
    (hbefore : before <+: p.stages) {c : Context} (h : p.upTo inputsToDrop before {} = .ok () c) :
    ∀ binding ∈ c.scope.bindings, p.Binds inputsToDrop binding.1 binding.2 := by
  refine holds_of_turns (fun c => ∀ binding ∈ c.scope.bindings,
    p.Binds inputsToDrop binding.1 binding.2) ?_ ?_ hbefore h
  · exact fun c hinputs binding hbound => .input hinputs hbound
  · intro before stage emit c c' hturn hemit hearlier binding hbound
    obtain ⟨added, hadded⟩ := (hturn.reaches hscripted hemit).bindings_suffix
    rw [← hadded] at hbound
    rcases List.mem_append.mp hbound with hnew | hold
    · exact .stage hturn hemit hadded.symm hnew
    · exact hearlier binding hold

theorem outputsHeld_of_contract (outputsToDrop : NameSet) (hscripted : ∀ s ∈ p.stages, s.Scripted)
    (hcontract : p.KeepsContract inputsToDrop) (hterminal : p.terminal = p.seenBehind p.stages)
    {finish : Context} (h : p.upTo inputsToDrop p.stages {} = .ok () finish) :
    p.OutputsHeld inputsToDrop outputsToDrop finish := by
  have hheld : ∀ column ∈ p.terminal.visible, inputsToDrop.contains column.name = false →
      finish.containsColumn column.name = true := by
    rw [hterminal]
    exact containsColumn_behind hscripted hcontract (List.prefix_refl _) h
  refine ⟨hheld, ?_⟩
  intro before column c hposition hpass
  have hmem := hposition.subset (List.mem_append_right _ (List.mem_singleton_self column))
  obtain ⟨hcolumn, -, hkept⟩ := mem_outputColumns.mp hmem
  obtain ⟨name, hname⟩ := Context.containsColumn_iff.mp (hheld column hcolumn hkept)
  have hreaches : Context.Reaches {} c := (reaches_of_upTo hscripted (List.prefix_refl _) h).trans
    ((Replay.byCalls_outputs before).reaches hpass)
  exact ⟨name, hname, Build.lookupOrAllocate_of_held
    (hreaches.referenced Context.referenced_empty) (Replay.variableOf?_outputs hpass hname)⟩

/-- Whoever registered an output, a stage or the pass at the end, it copies
a variable that an input or a stage bound to a column. -/
theorem outputs_bound (hscripted : ∀ s ∈ p.stages, s.Scripted)
    (hcontract : p.KeepsContract inputsToDrop) (hterminal : p.terminal = p.seenBehind p.stages)
    {c : Context} (h : p.replay inputsToDrop outputsToDrop {} = .ok () c) :
    ∀ output ∈ c.outputs, ∃ column name, p.Binds inputsToDrop column name
      ∧ .assign output.name (.variable name) ∈ c.body := by
  obtain ⟨start, finish, hstart, hfinish, houtputs⟩ := replay_eq_ok h
  have hreached : p.upTo inputsToDrop p.stages {} = .ok () finish := by
    rw [upTo_apply, hstart]
    exact hfinish
  have hreaches := reaches_of_upTo hscripted (List.prefix_refl _) hreached
  have hbinds := binds_of_mem hscripted (List.prefix_refl _) hreached
  have hends := outputsHeld_of_contract outputsToDrop hscripted hcontract hterminal hreached
  obtain ⟨copies, hcopied, -, houts, hbody⟩ := Replay.outputs_eq_ok houtputs
  intro output houtput
  rw [houts] at houtput
  rw [hbody]
  rcases List.mem_append.mp houtput with hstage | hpass
  · obtain ⟨column, source, hbound, hcopy⟩ :=
      hreaches.copiesBound (fun _ hnone => absurd hnone List.not_mem_nil) output hstage
    exact ⟨column, source, hbinds _ hbound, List.mem_append_left _ hcopy⟩
  · obtain ⟨copy, hcopy, rfl⟩ := List.mem_map.mp hpass
    have hcolumn : copy.column ∈ p.outputColumns inputsToDrop outputsToDrop := by
      rw [← hcopied.each]
      exact List.mem_map_of_mem hcopy
    obtain ⟨hvisible, -, hkept⟩ := mem_outputColumns.mp hcolumn
    have hheld := hends.held copy.column hvisible hkept
    refine ⟨copy.column.name, copy.source, ?_, List.mem_append_right _ (List.mem_map_of_mem hcopy)⟩
    rcases hcopied.sourced copy hcopy with hsource | ⟨hnone, -⟩
    · exact hbinds _ (Context.mem_bindings_of_variableOf? hsource)
    · obtain ⟨name, hname⟩ := Context.containsColumn_iff.mp hheld
      rw [hnone] at hname
      cases hname

end Plan

end ModelExport
