import ModelExport.Extent

/-!
# Column types

The type of a column of tabular data: a scalar or a vector of items, an
item being a primitive of some raw kind or a key into a finite set.
-/

namespace ModelExport

/-! ## Raw kinds -/

/-- The primitive kinds that a column can hold. -/
inductive RawKind where
  | int8 | uint8 | int16 | uint16 | int32 | uint32 | int64 | uint64
  | float32 | float64 | text | boolean | timeSpan | dateTime | dateTimeZone | uuid
  deriving DecidableEq

namespace RawKind

/-- All kinds; the position of a kind in this list is its number in stored files. -/
def all : List RawKind :=
  [.int8, .uint8, .int16, .uint16, .int32, .uint32, .int64, .uint64,
   .float32, .float64, .text, .boolean, .timeSpan, .dateTime, .dateTimeZone, .uuid]

def name : RawKind → String
  | .int8 => "Int8"
  | .uint8 => "UInt8"
  | .int16 => "Int16"
  | .uint16 => "UInt16"
  | .int32 => "Int32"
  | .uint32 => "UInt32"
  | .int64 => "Int64"
  | .uint64 => "UInt64"
  | .float32 => "Float32"
  | .float64 => "Float64"
  | .text => "Text"
  | .boolean => "Boolean"
  | .timeSpan => "TimeSpan"
  | .dateTime => "DateTime"
  | .dateTimeZone => "DateTimeZone"
  | .uuid => "Uuid"

theorem mem_all (k : RawKind) : k ∈ all := by
  cases k <;> decide

end RawKind

/-! ## Items and column types -/

/-- What one cell of a column holds. A key is a number of kind `raw` that
stands for one of `count` entries. -/
inductive Item where
  | primitive (kind : RawKind)
  | key (raw : RawKind) (count : UInt64)
  deriving DecidableEq

namespace Item

def rawKind : Item → RawKind
  | .primitive kind => kind
  | .key raw _ => raw

def isKey : Item → Bool
  | .primitive _ => false
  | .key _ _ => true

end Item

/-- The type of a column. A vector without extents has unknown length. -/
inductive ColumnType where
  | scalar (item : Item)
  | vector (item : Item) (dims : List UInt64)
  deriving DecidableEq

namespace ColumnType

/-- A scalar column of primitives. -/
def ofKind (kind : RawKind) : ColumnType := .scalar (.primitive kind)

/-- A scalar column of keys. -/
def keyOf (raw : RawKind) (count : UInt64) : ColumnType := .scalar (.key raw count)

/-- A vector column of primitives. -/
def vectorOf (kind : RawKind) (dims : List UInt64) : ColumnType := .vector (.primitive kind) dims

/-- A vector column of unknown length. -/
def unsizedOf (kind : RawKind) : ColumnType := vectorOf kind []

def item : ColumnType → Item
  | .scalar item => item
  | .vector item _ => item

def rawKind (t : ColumnType) : RawKind := t.item.rawKind

def isKey (t : ColumnType) : Bool := t.item.isKey

def isVector : ColumnType → Bool
  | .scalar _ => false
  | .vector _ _ => true

def dims : ColumnType → List UInt64
  | .scalar _ => []
  | .vector _ dims => dims

/-- The number of items in a row: one for a scalar, for a vector the
product of its extents, and zero when the length is unknown or does not
fit 64 bits. -/
def valueCount : ColumnType → UInt64
  | .scalar _ => 1
  | .vector _ [] => 0
  | .vector _ dims => (cellCount? dims).getD 0

end ColumnType

end ModelExport
