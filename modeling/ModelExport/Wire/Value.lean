import ModelExport.Descriptor
import ModelExport.Wire.Basic

/-!
# Stored literals and types of variables

Tensors are read as they stand: the extents are not compared with the
number of elements.
-/

namespace ModelExport

namespace ElementKind

def toDatum (k : ElementKind) : Datum := .ofPosition all k

def ofDatum? (d : Datum) : Option ElementKind := d.position? all

instance : Wire ElementKind := ⟨.elementKind, toDatum, ofDatum?⟩

end ElementKind

/-! ## Literals -/

namespace TensorData

def toDatum : TensorData → Datum
  | .int64s values => .variant 0 (.list (values.map .int))
  | .floats values => .variant 1 (.list (values.map .single))
  | .strings values => .variant 2 (.texts values)

def ofDatum? : Datum → Option TensorData
  | .variant 0 values => (values.items? Datum.int?).map .int64s
  | .variant 1 values => (values.items? Datum.single?).map .floats
  | .variant 2 values => (values.items? Datum.text?).map .strings
  | _ => none

instance : Wire TensorData := ⟨.tensorData, toDatum, ofDatum?⟩

end TensorData

namespace Tensor

def toDatum (t : Tensor) : Datum := .record [.list (t.dims.map .uint), t.data.toDatum]

def ofDatum? : Datum → Option Tensor
  | .record [dims, data] => do
      return { dims := ← dims.items? Datum.uint?, data := ← TensorData.ofDatum? data }
  | _ => none

instance : Wire Tensor := ⟨.tensor, toDatum, ofDatum?⟩

end Tensor

namespace Value

def toDatum : Value → Datum
  | .int64 n => .variant 0 (.int n)
  | .float x => .variant 1 (.single x)
  | .string s => .variant 2 (.text s)
  | .tensor t => .variant 3 t.toDatum

def ofDatum? : Datum → Option Value
  | .variant 0 (.int n) => some (.int64 n)
  | .variant 1 (.single x) => some (.float x)
  | .variant 2 (.text s) => some (.string s)
  | .variant 3 t => (Tensor.ofDatum? t).map .tensor
  | _ => none

instance : Wire Value := ⟨.value, toDatum, ofDatum?⟩

end Value

/-! ## Types of variables -/

namespace Extent

def toDatum : Extent → Datum
  | .fixed n => .variant 0 (.uint n)
  | .unbound => .unit 1

def ofDatum? : Datum → Option Extent
  | .variant 0 (.uint n) => some (.fixed n)
  | .variant 1 (.record []) => some .unbound
  | _ => none

instance : Wire Extent := ⟨.extent, toDatum, ofDatum?⟩

end Extent

namespace Descriptor

def toDatum : Descriptor → Datum
  | .scalar kind => .variant 0 kind.toDatum
  | .tensor kind shape => .variant 1 (.record [kind.toDatum, .list (shape.map Extent.toDatum)])
  | .map key value => .variant 2 (.record [key.toDatum, value.toDatum])

def ofDatum? : Datum → Option Descriptor
  | .variant 0 kind => (ElementKind.ofDatum? kind).map .scalar
  | .variant 1 (.record [kind, shape]) => do
      return .tensor (← ElementKind.ofDatum? kind) (← shape.items? Extent.ofDatum?)
  | .variant 2 (.record [key, value]) => do
      return .map (← ElementKind.ofDatum? key) (← ofDatum? value)
  | _ => none

instance : Wire Descriptor := ⟨.descriptor, toDatum, ofDatum?⟩

end Descriptor

end ModelExport
