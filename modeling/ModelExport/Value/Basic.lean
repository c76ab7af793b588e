import ModelExport.Decimal.Digits
import ModelExport.Extent
import ModelExport.Value.Single

/-!
# Literal values

A literal is a scalar of one of three element kinds or a dense tensor of
them. `Tensor.ofData` is the checked way to build a tensor: the extents
have to describe as many cells as there are elements, and there has to be
an extent at all. Tensors that are read from a file are taken as they
stand, so the structure itself demands nothing.
-/

namespace ModelExport

/-! ## Element kinds -/

/-- The kinds of element that an exported program computes with. -/
inductive ElementKind where
  | int64 | float | string
  deriving DecidableEq

namespace ElementKind

/-- All kinds; the position of a kind in this list is its number in stored files. -/
def all : List ElementKind := [.int64, .float, .string]

def name : ElementKind → String
  | .int64 => "Int64"
  | .float => "Float"
  | .string => "String"

/-- The kind as it is written in the text of a type. -/
def text : ElementKind → String
  | .int64 => "int64"
  | .float => "float"
  | .string => "string"

end ElementKind

/-! ## Errors -/

/-- Why a value or an expression could not be built. -/
inductive ValueError where
  /-- The extents of a tensor describe more cells than 64 bits can count. -/
  | extentOverflow (dims : List UInt64)
  /-- The extents describe another number of cells than there are elements. -/
  | shapeMismatch (expected actual : Nat)
  /-- A statement that introduces names introduces none. -/
  | emptyLet
  /-- A counting loop has no variable. -/
  | emptyLoop
  /-- An access leads nowhere. -/
  | emptyPath
  deriving DecidableEq

namespace ValueError

def message : ValueError → String
  | .extentOverflow dims =>
      "Invalid value: tensor dims ["
        ++ ", ".intercalate (dims.map (fun d => decimal d.toNat)) ++ "] overflow"
  | .shapeMismatch expected actual =>
      "Shape mismatch: dims describe " ++ decimal expected ++ " elements but "
        ++ decimal actual ++ " were supplied"
  | .emptyLet => "Invalid operation: Let requires at least one binding"
  | .emptyLoop => "Invalid operation: For requires at least one induction binding"
  | .emptyPath => "Invalid operation: Element access requires a non-empty path"

end ValueError

/-! ## Tensors -/

/-- The elements of a tensor, the last extent varying fastest. -/
inductive TensorData where
  | int64s (values : List Int64)
  | floats (values : List Single)
  | strings (values : List String)
  deriving DecidableEq

namespace TensorData

def kind : TensorData → ElementKind
  | .int64s _ => .int64
  | .floats _ => .float
  | .strings _ => .string

def size : TensorData → Nat
  | .int64s values => values.length
  | .floats values => values.length
  | .strings values => values.length

/-- No element of the kind. -/
def empty : ElementKind → TensorData
  | .int64 => .int64s []
  | .float => .floats []
  | .string => .strings []

end TensorData

/-- Elements with the extents that arrange them. -/
structure Tensor where
  dims : List UInt64
  data : TensorData
  deriving DecidableEq

namespace Tensor

/-- The tensor with these extents, if they fit the elements. -/
def ofData (dims : List UInt64) (data : TensorData) : Except ValueError Tensor :=
  match cellCount? dims with
  | none => .error (.extentOverflow dims)
  | some expected =>
      if dims.isEmpty ∨ expected.toNat ≠ data.size then
        .error (.shapeMismatch expected.toNat data.size)
      else
        .ok { dims, data }

/-- The tensor whose one extent is the number of its elements. -/
def vector (data : TensorData) : Tensor :=
  { dims := [UInt64.ofNat data.size], data }

def kind (t : Tensor) : ElementKind := t.data.kind

def size (t : Tensor) : Nat := t.data.size

def isEmpty (t : Tensor) : Bool := t.size = 0

end Tensor

/-! ## Values -/

/-- A literal. -/
inductive Value where
  | int64 (n : Int64)
  | float (x : Single)
  | string (s : String)
  | tensor (t : Tensor)
  deriving DecidableEq

namespace Value

/-- The kind of the literal, or of its elements. -/
def kind : Value → ElementKind
  | .int64 _ => .int64
  | .float _ => .float
  | .string _ => .string
  | .tensor t => t.kind

def tensor? : Value → Option Tensor
  | .tensor t => some t
  | _ => none

def isTensor (v : Value) : Bool := v.tensor?.isSome

/-- The neutral scalar of a kind: zero or the empty text. -/
def zero : ElementKind → Value
  | .int64 => .int64 0
  | .float => .float .zero
  | .string => .string ""

/-- The tensor of a kind with no element and one extent. -/
def empty (kind : ElementKind) : Value := .tensor (.vector (.empty kind))

def ofInt64s (values : List Int64) : Value := .tensor (.vector (.int64s values))

def ofFloats (values : List Single) : Value := .tensor (.vector (.floats values))

def ofStrings (values : List String) : Value := .tensor (.vector (.strings values))

@[simp] theorem kind_zero (k : ElementKind) : (zero k).kind = k := by
  cases k <;> rfl

@[simp] theorem kind_empty (k : ElementKind) : (empty k).kind = k := by
  cases k <;> rfl

end Value

end ModelExport
