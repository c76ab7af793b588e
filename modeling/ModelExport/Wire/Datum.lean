import ModelExport.Value.Single

/-!
# Data

A `Datum` is what a stored value consists of when its notation is left
out: a binary notation and a textual one both write it and both read it
back. Which data belong to which kind of value is said by layouts
(`ModelExport.Wire.Layout`).
-/

namespace ModelExport

/-- A value without its notation. -/
inductive Datum where
  | bool (b : Bool)
  | uint (n : UInt64)
  | int (n : Int64)
  | single (x : Single)
  | text (s : String)
  /-- A field that is not given. -/
  | absent
  /-- A field that need not be given and is. -/
  | present (d : Datum)
  | list (items : List Datum)
  /-- Keys with their values. -/
  | table (entries : List (Datum × Datum))
  /-- The fields of a record, in the order of its layout. -/
  | record (fields : List Datum)
  /-- One of several cases, by its position in the layout; a case without
  content has an empty record. -/
  | variant (index : Nat) (content : Datum)

namespace Datum

/-- A case without content. -/
def unit (index : Nat) : Datum := .variant index (.record [])

def ofOption {α : Type} (f : α → Datum) : Option α → Datum
  | none => .absent
  | some a => .present (f a)

def texts (items : List String) : Datum := .list (items.map .text)

def text? : Datum → Option String
  | .text s => some s
  | _ => none

def bool? : Datum → Option Bool
  | .bool b => some b
  | _ => none

def uint? : Datum → Option UInt64
  | .uint n => some n
  | _ => none

def int? : Datum → Option Int64
  | .int n => some n
  | _ => none

def single? : Datum → Option Single
  | .single x => some x
  | _ => none

/-- The items of a list, each read by the same function. -/
def items? {α : Type} (f : Datum → Option α) : Datum → Option (List α)
  | .list items => items.mapM f
  | _ => none

/-- The entries of a table, all keys and all values each read by the same function. -/
def entries? {α β : Type} (key : Datum → Option α) (value : Datum → Option β) :
    Datum → Option (List (α × β))
  | .table entries => entries.mapM fun (e : Datum × Datum) => do
      return (← key e.1, ← value e.2)
  | _ => none

/-- A field that need not be given. -/
def option? {α : Type} (f : Datum → Option α) : Datum → Option (Option α)
  | .absent => some none
  | .present d => (f d).map some
  | _ => none

end Datum

end ModelExport
