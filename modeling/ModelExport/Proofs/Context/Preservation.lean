import ModelExport.Proofs.Context.Growth
import ModelExport.Proofs.Context.Reference
import ModelExport.Proofs.Context.Registration

/-!
# What is in a context stays as it is

Lists that only grow are half of what later stages rely on; the other half
is that tables are not overwritten (`Context.PreservedIn`). References are
written only where there are none, and a column that is bound again is
still bound. A type, however, is written under its name whatever stood
there before: that it overwrites nothing is due to the invariant
`Context.Typed`, by which a new name is not among the types. So the table
of types is preserved from reached contexts on, and not from any context
whatsoever.
-/

namespace ModelExport

namespace Context

/-- What the first context holds is held by the second one. The columns may
by then be held by other variables. -/
structure PreservedIn (c c' : Context) : Prop extends c.Grows c' where
  types : c.types.entries <+: c'.types.entries
  references : ∀ name e, c.reference? name = some e → c'.reference? name = some e
  columns : ∀ column, c.containsColumn column = true → c'.containsColumn column = true

theorem containsColumn_of_suffix {c c' : Context} (h : c.scope.bindings <:+ c'.scope.bindings)
    {column : String} (hcolumn : c.containsColumn column = true) :
    c'.containsColumn column = true := by
  obtain ⟨added, hadded⟩ := h
  unfold containsColumn Scope.isBound Scope.lookup? at hcolumn ⊢
  rw [← hadded, List.lookup_append, Option.isSome_or, hcolumn, Bool.or_true]

end Context

/-! ## Runs -/

namespace Context.Reaches

variable {c c' : Context}

theorem bindings_suffix (h : c.Reaches c') : c.scope.bindings <:+ c'.scope.bindings :=
  h.keeps (c.scope.bindings <:+ ·.scope.bindings)
    (fun _ _ _ _ houtcome hsuffix => hsuffix.trans houtcome.naming.bindings_suffix)
    List.suffix_rfl

theorem containsColumn (h : c.Reaches c') {column : String}
    (hcolumn : c.containsColumn column = true) : c'.containsColumn column = true :=
  containsColumn_of_suffix h.bindings_suffix hcolumn

end Context.Reaches

namespace Call

theorem run_types_prefix (calls : List Call) {c : Context} (h : c.Typed) :
    c.types.entries <+: (run calls c).2.types.entries := by
  obtain ⟨-, added, hadded, -⟩ := run_typed h calls
  exact ⟨added, hadded.symm⟩

/-- What calls have put into a new context is there in the same place after
all further calls: parameters, statements, functions and types in front of
the later ones, names taken, references as they were, columns bound. -/
theorem contexts_are_append_only (calls later : List Call) :
    (run calls {}).2.PreservedIn (run (calls ++ later) {}).2 := by
  rw [run_append]
  obtain ⟨htyped, -⟩ := run_typed Context.typed_empty calls
  have hlater : (run calls {}).2.Reaches (run later (run calls {}).2).2 := ⟨later, rfl⟩
  exact
    { hlater.grows with
      types := run_types_prefix later htyped
      references := fun name e => hlater.reference?_eq_some
      columns := fun column => hlater.containsColumn }

-- From a context that calls do not reach, the type of a name that is not taken is overwritten.
example :
    let c : Context := { types := Table.ofList [("x", .scalar .string)] }
    (run [.addInput (.ofKind .float32) "x"] c).2.types.get? "x" = some (.scalar .float) := by
  decide +kernel

end Call

end ModelExport
