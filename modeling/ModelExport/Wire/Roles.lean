import ModelExport.Scorer.Role
import ModelExport.Wire.Basic

/-!
# Stored roles

Roles are the keys of a table. A custom role cannot be the name of a
field, so roles with a custom one have no textual form.
-/

namespace ModelExport

namespace Role

def toDatum : Role → Datum
  | .custom text => .variant 5 (.text text)
  | r => .unit r.rank

def ofDatum? : Datum → Option Role
  | .variant 5 (.text text) => some (.custom text)
  | .variant index (.record []) => usual[index]?
  | _ => none

instance : Wire Role := ⟨.role, toDatum, ofDatum?⟩

end Role

namespace Roles

def toDatum (roles : Roles) : Datum :=
  .record [.table (roles.entries.map fun e => (e.1.toDatum, .text e.2))]

def ofDatum? : Datum → Option Roles
  | .record [entries] => (entries.entries? Role.ofDatum? Datum.text?).map SortedTable.ofList
  | _ => none

instance : Wire Roles := ⟨.roles, toDatum, ofDatum?⟩

end Roles

end ModelExport
