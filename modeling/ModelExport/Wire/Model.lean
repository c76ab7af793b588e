import ModelExport.Model
import ModelExport.Wire.Expr

/-!
# Stored models

The types of a program are a table in the order of registration. A text
that has a name twice means its last type at its first place.
-/

namespace ModelExport

namespace Signature

def toDatum (s : Signature) : Datum :=
  .record [.list (s.inputs.map Parameter.toDatum), .list (s.outputs.map Parameter.toDatum)]

def ofDatum? : Datum → Option Signature
  | .record [inputs, outputs] => do
      return { inputs := ← inputs.items? Parameter.ofDatum?
               outputs := ← outputs.items? Parameter.ofDatum? }
  | _ => none

instance : Wire Signature := ⟨.signature, toDatum, ofDatum?⟩

end Signature

namespace Function

def toDatum (f : Function) : Datum :=
  .record
    [.text f.name, .list (f.inputs.map Parameter.toDatum), .list (f.outputs.map Parameter.toDatum),
     .list (Expr.toData f.body)]

def ofDatum? : Datum → Option Function
  | .record [.text name, inputs, outputs, .list body] => do
      return { name
               inputs := ← inputs.items? Parameter.ofDatum?
               outputs := ← outputs.items? Parameter.ofDatum?
               body := ← Expr.ofData? body }
  | _ => none

instance : Wire Function := ⟨.function, toDatum, ofDatum?⟩

end Function

namespace Table

def toDatum (t : Table Descriptor) : Datum :=
  .table (t.entries.map fun e => (.text e.1, e.2.toDatum))

def ofDatum? (d : Datum) : Option (Table Descriptor) :=
  (d.entries? Datum.text? Descriptor.ofDatum?).map ofList

end Table

namespace Program

def toDatum (p : Program) : Datum :=
  .record
    [.text p.name, p.signature.toDatum, .list (Expr.toData p.body),
     .list (p.functions.map Function.toDatum), p.types.toDatum]

def ofDatum? : Datum → Option Program
  | .record [.text name, signature, .list body, functions, types] => do
      return { name
               signature := ← Signature.ofDatum? signature
               body := ← Expr.ofData? body
               functions := ← functions.items? Function.ofDatum?
               types := ← Table.ofDatum? types }
  | _ => none

instance : Wire Program := ⟨.program, toDatum, ofDatum?⟩

end Program

namespace Model

def toDatum (m : Model) : Datum :=
  .record
    [.int m.irVersion, .text m.producerName, .text m.producerVersion, .text m.domain,
     .int m.modelVersion, m.program.toDatum]

def ofDatum? : Datum → Option Model
  | .record [.int irVersion, .text producerName, .text producerVersion, .text domain,
      .int modelVersion, program] =>
      (Program.ofDatum? program).map fun program =>
        { irVersion, producerName, producerVersion, domain, modelVersion, program }
  | _ => none

instance : Wire Model := ⟨.model, toDatum, ofDatum?⟩

end Model

end ModelExport
