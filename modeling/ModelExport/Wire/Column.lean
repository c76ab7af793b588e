import ModelExport.Column.Schema
import ModelExport.Wire.Basic

/-!
# Stored columns and schemas
-/

namespace ModelExport

namespace RawKind

def toDatum (k : RawKind) : Datum := .ofPosition all k

def ofDatum? (d : Datum) : Option RawKind := d.position? all

instance : Wire RawKind := ⟨.rawKind, toDatum, ofDatum?⟩

end RawKind

namespace Item

def toDatum : Item → Datum
  | .primitive kind => .variant 0 kind.toDatum
  | .key raw count => .variant 1 (.record [raw.toDatum, .uint count])

def ofDatum? : Datum → Option Item
  | .variant 0 kind => (RawKind.ofDatum? kind).map .primitive
  | .variant 1 (.record [raw, .uint count]) => (RawKind.ofDatum? raw).map (.key · count)
  | _ => none

instance : Wire Item := ⟨.item, toDatum, ofDatum?⟩

end Item

namespace ColumnType

def toDatum : ColumnType → Datum
  | .scalar item => .variant 0 item.toDatum
  | .vector item dims => .variant 1 (.record [item.toDatum, .list (dims.map .uint)])

def ofDatum? : Datum → Option ColumnType
  | .variant 0 item => (Item.ofDatum? item).map .scalar
  | .variant 1 (.record [item, dims]) => do
      return .vector (← Item.ofDatum? item) (← dims.items? Datum.uint?)
  | _ => none

instance : Wire ColumnType := ⟨.columnType, toDatum, ofDatum?⟩

end ColumnType

namespace Column

def toDatum (c : Column) : Datum :=
  .record [.text c.name, c.type.toDatum, .bool c.hidden]

def ofDatum? : Datum → Option Column
  | .record [.text name, type, .bool hidden] =>
      (ColumnType.ofDatum? type).map fun type => { name, type, hidden }
  | _ => none

instance : Wire Column := ⟨.column, toDatum, ofDatum?⟩

end Column

namespace Schema

def toDatum (s : Schema) : Datum := .record [.list (s.columns.map Column.toDatum)]

def ofDatum? : Datum → Option Schema
  | .record [columns] => (columns.items? Column.ofDatum?).map .mk
  | _ => none

instance : Wire Schema := ⟨.schema, toDatum, ofDatum?⟩

end Schema

end ModelExport
