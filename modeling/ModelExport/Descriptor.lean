import ModelExport.Column.Type
import ModelExport.Value.Basic

/-!
# Types of program variables

A `Descriptor` is the type of a variable of an exported program. Column
types are taken to descriptors by `ColumnType.descriptor`: a closed table
says which raw kinds have an element kind, scalars stay scalars, and a
vector becomes a tensor whose shape starts with the batch extent and goes
on with one unbound extent when the length is unknown, with the extent
one when there is one item, and with the declared extents otherwise.
-/

namespace ModelExport

/-! ## Extents and descriptors -/

/-- An extent of a tensor type: known, or known only when the program runs. -/
inductive Extent where
  | fixed (n : UInt64)
  | unbound
  deriving DecidableEq

namespace Extent

/-- The extent that every tensor shape starts with. -/
def batch : Extent := .fixed 1

def text : Extent → String
  | .fixed n => decimal n.toNat
  | .unbound => "?"

end Extent

/-- The type of a variable. -/
inductive Descriptor where
  | scalar (kind : ElementKind)
  | tensor (kind : ElementKind) (shape : List Extent)
  | map (key : ElementKind) (value : Descriptor)
  deriving DecidableEq

namespace Descriptor

/-- A tensor type of the batch extent followed by the given ones. -/
def batched (kind : ElementKind) (extents : List Extent) : Descriptor :=
  .tensor kind (.batch :: extents)

/-- The kind of the elements; for a map, that of its values. -/
def elementKind : Descriptor → ElementKind
  | .scalar kind => kind
  | .tensor kind _ => kind
  | .map _ value => value.elementKind

def shape? : Descriptor → Option (List Extent)
  | .tensor _ shape => some shape
  | _ => none

def text : Descriptor → String
  | .scalar kind => kind.text
  | .tensor kind shape => kind.text ++ "[" ++ ",".intercalate (shape.map Extent.text) ++ "]"
  | .map key value => "map<" ++ key.text ++ ", " ++ value.text ++ ">"

end Descriptor

/-! ## From columns to variables -/

namespace RawKind

/-- The element kind that stands for the raw kind, where one does. -/
def elementKind? : RawKind → Option ElementKind
  | .boolean => some .int64
  | .uint32 => some .int64
  | .float32 => some .float
  | .text => some .string
  | _ => none

end RawKind

namespace ColumnType

/-- The extents that follow the batch extent for a vector of `count` items. -/
def vectorExtents (count : UInt64) (dims : List UInt64) : List Extent :=
  if count = 0 then [.unbound]
  else if count = 1 then [.fixed 1]
  else dims.map .fixed

/-- The type of the variable that holds a column, where the raw kind has an element kind. -/
def descriptor? (t : ColumnType) : Option Descriptor :=
  t.rawKind.elementKind?.map fun kind =>
    match t with
    | .scalar _ => .scalar kind
    | .vector _ dims => .batched kind (vectorExtents t.valueCount dims)

end ColumnType

end ModelExport
