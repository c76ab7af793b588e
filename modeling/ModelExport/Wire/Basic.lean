import ModelExport.Json.Printer
import ModelExport.Json.Reader
import ModelExport.Wire.Binary
import ModelExport.Wire.Text

/-!
# Stored values

A type is stored by taking its values to data of one entity and back. The
two notations then follow: bytes that are led by the layout of the entity
and texts that are.
-/

namespace ModelExport

/-- A type whose values are stored as data of an entity. -/
class Wire (α : Type) where
  entity : Entity
  toDatum : α → Datum
  ofDatum? : Datum → Option α

namespace Datum

/-- A choice among names: the position of the value among all. -/
def ofPosition {α : Type} [DecidableEq α] (all : List α) (a : α) : Datum :=
  .unit (all.idxOf a)

def position? {α : Type} (all : List α) : Datum → Option α
  | .variant index (.record []) => all[index]?
  | _ => none

theorem position?_ofPosition {α : Type} [DecidableEq α] {all : List α} {a : α} (h : a ∈ all) :
    position? all (ofPosition all a) = some a := by
  have hlt : all.idxOf a < all.length := List.idxOf_lt_length_of_mem h
  simp [position?, ofPosition, unit, hlt]

end Datum

namespace Wire

variable {α : Type} [Wire α]

/-- The binary form. -/
def encode (a : α) : List UInt8 := (toDatum a).encode

/-- The value at the front of the bytes and the bytes behind it. -/
def decode (bytes : List UInt8) : Except WireError (α × List UInt8) := do
  let (d, rest) ← Datum.decode (entity α) bytes
  match ofDatum? d with
  | some a => return (a, rest)
  | none => throw .unknownCase

/-- The tree of the textual form, if there is one. -/
def toJson? (a : α) : Option Json := (toDatum a).toJson? (.entity (entity α))

/-- The value that a tree stands for within the budget of levels. -/
def ofJson? (budget : Nat) (j : Json) : Option α :=
  (Datum.ofJson? budget (.entity (entity α)) j).bind ofDatum?

/-- The value that a text stands for. -/
def ofText? (text : String) : Option α := (Json.parse? text).bind (ofJson? Datum.levels)

end Wire

end ModelExport
