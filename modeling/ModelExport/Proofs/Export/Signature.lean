import ModelExport.Proofs.Context.Registration
import ModelExport.Proofs.Export.Script

/-!
# Signatures and types of models

A model is assembled from a context that calls leave, and no call can
write a type twice or take a parameter's name again. So the parameters of
a model have different names, each with its type in the table, and the
table lists the registered variables in the order of the calls - in every
context that calls can reach, and in every model that scripted stages and
mappers can give.
-/

namespace ModelExport

namespace Call

/-- The parameters have their types in the table, and the table holds what
the calls registered. Further calls leave its entries as they are. -/
structure Registers (calls : List Call) (signature : Signature) (types : Table Descriptor) :
    Prop where
  declared : signature.DeclaredIn types
  entries : types.entries.map (fun e => (e.1, some e.2))
    = (registrations calls (run calls {}).1).map fun r => (r.1, r.2.descriptor?)
  kept : ∀ later, types.entries <+: (run (calls ++ later) {}).2.types.entries

theorem run_registers (calls : List Call) :
    Registers calls ⟨(run calls {}).2.inputs, (run calls {}).2.outputs⟩
      (run calls {}).2.types := by
  obtain ⟨htyped, added, hentries, hadded⟩ := run_typed Context.typed_empty calls
  refine ⟨htyped.declaredIn, ?_, ?_⟩
  · rw [hentries]
    exact hadded
  · intro later
    rw [run_append]
    obtain ⟨_, more, hmore, _⟩ := run_typed htyped later
    exact ⟨more, hmore.symm⟩

end Call

/-- In every context that calls can reach, in every model assembled from
one, and in every model that scripted stages give. -/
theorem signature_registered :
    (∀ calls : List Call, Call.Registers calls
      ⟨(Call.run calls {}).2.inputs, (Call.run calls {}).2.outputs⟩ (Call.run calls {}).2.types)
    ∧ (∀ (calls : List Call) (envelope : Envelope),
        Call.Registers calls ((Call.run calls {}).2.assemble envelope).program.signature
          ((Call.run calls {}).2.assemble envelope).program.types)
    ∧ ∀ (x : Exporter) (p : Pipeline) (predictor : Option Predictor) (roles : Option Roles)
        (report : Report), p.Scripted →
        (∀ pr ∈ predictor, ∀ scorer ∈ x.resolver pr p.terminal roles, scorer.mapper.Scripted) →
        x.run p predictor roles = .ok report →
        ∃ calls, report.model = (Call.run calls {}).2.assemble x.envelope
          ∧ Call.Registers calls report.model.program.signature report.model.program.types := by
  refine ⟨Call.run_registers, fun calls _ => Call.run_registers calls, ?_⟩
  intro x p predictor roles report hp hm hrun
  obtain ⟨calls, hmodel⟩ := Exporter.model_of_calls hp hm hrun
  refine ⟨calls, hmodel, ?_⟩
  rw [hmodel]
  exact Call.run_registers calls

/-- The outputs make way for the variables that hold their columns. -/
theorem signature_registered_copying :
    let column : Column := { name := "x", type := .ofKind .float32 }
    let source : Schema := { columns := [column] }
    let predictor : Predictor := { name := "Tree", bind? := fun _ _ => some (.passing column) }
    ∃ report, Exporter.run {} ⟨source, [.copying source column "y"]⟩ (some predictor) none
        = .ok report
      ∧ report.model.program.types.names = ["x", "y", "Score", "x1", "y1", "Score1"]
      ∧ ∃ calls, report.model = (Call.run calls {}).2.assemble {}
        ∧ Call.Registers calls report.model.program.signature report.model.program.types := by
  intro column source predictor
  have hnames : (Exporter.run {} ⟨source, [.copying source column "y"]⟩ (some predictor)
      none).toOption.map (·.model.program.types.names)
        = some ["x", "y", "Score", "x1", "y1", "Score1"] := by
    decide +kernel
  cases hrun : Exporter.run {} ⟨source, [.copying source column "y"]⟩ (some predictor) none with
  | error e =>
      rw [hrun] at hnames
      cases hnames
  | ok report =>
      rw [hrun] at hnames
      refine ⟨report, rfl, Option.some.inj hnames, ?_⟩
      refine signature_registered.2.2 {} _ (some predictor) none report ?_ ?_ hrun
      · intro s hs
        obtain rfl := List.mem_singleton.mp hs
        exact Stage.scripted_copying source column "y"
      · intro pr hpr scorer hscorer
        obtain rfl := Option.mem_some_iff.mp hpr
        obtain rfl := Option.mem_some_iff.mp hscorer
        exact Mapper.scripted_passing column

end ModelExport
