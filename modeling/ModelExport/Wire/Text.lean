import ModelExport.Json.Number
import ModelExport.Wire.Layout

/-!
# The textual notation

Data as JSON trees, led by a shape. A record is an object of its fields.
A case without content is its name, any other case is an object whose
only field is named for the case. A field that is not given is null.

A reader takes more than a writer gives. Unknown fields are skipped
whatever they hold, a field may be left out where the layout says what
that means, a record may be an array of its fields, and a case without
content may be written like the others with null. A field that is given
twice is refused. Arrays and objects nest only so deeply: each one that
is read takes one from a budget of levels.
-/

namespace ModelExport

namespace Field

/-- What leaving the field out of an object means, if it may be left out. -/
def missing? (f : Field) : Option Datum :=
  match f.default? with
  | some d => some d
  | none => if f.optional then some .absent else none

end Field

namespace Form

/-- The position and the content of the case of the name. -/
def case? (form : Form) (name : String) : Option (Nat × Content) :=
  match form with
  | .record _ => none
  | .choice cases =>
      match cases.findIdx? (·.name = name) with
      | some index => cases[index]?.map fun c => (index, c.content)
      | none => none

/-- The position of the case of the name, if it has no content. -/
def unit? (form : Form) (name : String) : Option Nat :=
  match form.case? name with
  | some (index, .empty) => some index
  | _ => none

end Form

namespace Datum

/-! ## Writing -/

/-- A key as the name of a field. Cases with content cannot be keys. -/
def keyText? : Shape → Datum → Option String
  | .text, .text s => some s
  | .entity e, .variant index (.record []) =>
      match e.layout with
      | .choice cases =>
          match cases[index]? with
          | some { name, content := .empty } => some name
          | _ => none
      | .record _ => none
  | _, _ => none

mutual

/-- The tree of a datum of the shape, if it has one. -/
def toJson? : Shape → Datum → Option Json
  | .bool, .bool b => some (.bool b)
  | .uint, .uint n => some (.ofNat n.toNat)
  | .int, .int n => some (.ofInt n.toInt)
  | .single, .single x => some x.toJson
  | .text, .text s => some (.ofString s)
  | .list item, .list items => (itemsToJson? item items).map .arr
  | .table key value, .table entries => (entriesToJson? key value entries).map .obj
  | .entity e, .record ds =>
      match e.layout with
      | .record fields => (fieldsToJson? fields ds).map .obj
      | .choice _ => none
  | .entity e, .variant index content =>
      match e.layout with
      | .record _ => none
      | .choice cases =>
          match cases[index]? with
          | none => none
          | some c =>
              match c.content with
              | .empty => some (.ofString c.name)
              | .one shape =>
                  (toJson? shape content).map fun j => .object [(c.name, j)]
              | .fields fields =>
                  match content with
                  | .record ds =>
                      (fieldsToJson? fields ds).map fun js => .object [(c.name, .obj js)]
                  | _ => none
  | _, _ => none

def itemsToJson? (item : Shape) : List Datum → Option (List Json)
  | [] => some []
  | d :: rest => do
      let j ← toJson? item d
      let js ← itemsToJson? item rest
      return j :: js

def entriesToJson? (key value : Shape) :
    List (Datum × Datum) → Option (List (Json.Text × Json))
  | [] => some []
  | (k, d) :: rest => do
      let name ← keyText? key k
      let j ← toJson? value d
      let js ← entriesToJson? key value rest
      return (some name, j) :: js

def fieldsToJson? : List Field → List Datum → Option (List (Json.Text × Json))
  | [], [] => some []
  | field :: fields, d :: rest => do
      let j ←
        if field.optional then
          match d with
          | .absent => some Json.null
          | .present d => toJson? field.shape d
          | _ => none
        else toJson? field.shape d
      let js ← fieldsToJson? fields rest
      return (some field.name, j) :: js
  | _, _ => none

end

/-! ## Reading -/

/-- The key that the name of a field stands for. -/
def ofKey? : Shape → Json.Text → Option Datum
  | .text, some s => some (.text s)
  | .entity e, some s => (e.layout.unit? s).map .unit
  | _, _ => none

/-- The fields in the order of the layout, from those that were read. -/
def arrange? (fields : List Field) (read : List (String × Datum)) : Option (List Datum) :=
  fields.mapM fun field =>
    match read.lookup field.name with
    | some d => some d
    | none => field.missing?

mutual

/-- The datum of the shape, if the tree stands for one within the budget of levels. -/
def ofJson? (budget : Nat) : Shape → Json → Option Datum
  | .bool, .bool b => some (.bool b)
  | .uint, .num n => n.uint64?.map .uint
  | .int, .num n => n.int64?.map .int
  | .single, j => (Single.ofJson? j).map .single
  | .text, .str (some s) => some (.text s)
  | .list item, .arr js =>
      if budget = 0 then none else (itemsOfJson? (budget - 1) item js).map .list
  | .table key value, .obj given =>
      if budget = 0 then none else (entriesOfJson? (budget - 1) key value given).map .table
  | .entity e, .str (some name) => (e.layout.unit? name).map .unit
  | .entity e, .arr js =>
      match e.layout with
      | .record fields =>
          if budget = 0 then none else (rowOfJson? (budget - 1) fields js).map .record
      | .choice _ => none
  | .entity e, .obj given =>
      if budget = 0 then none
      else
        match e.layout with
        | .record fields =>
            ((fieldsOfJson? (budget - 1) fields given).bind (arrange? fields)).map .record
        | .choice cases =>
            match given with
            | [(some name, j)] =>
                match (Form.choice cases).case? name with
                | none => none
                | some (index, .empty) =>
                    match j with
                    | .null => some (.unit index)
                    | _ => none
                | some (index, .one shape) =>
                    (ofJson? (budget - 1) shape j).map (.variant index)
                | some (index, .fields fields) =>
                    if budget = 1 then none
                    else
                      match j with
                      | .obj given =>
                          ((fieldsOfJson? (budget - 2) fields given).bind (arrange? fields)).map
                            fun ds => .variant index (.record ds)
                      | .arr js =>
                          (rowOfJson? (budget - 2) fields js).map
                            fun ds => .variant index (.record ds)
                      | _ => none
            | _ => none
  | _, _ => none

def itemsOfJson? (budget : Nat) (item : Shape) : List Json → Option (List Datum)
  | [] => some []
  | j :: rest => do
      let d ← ofJson? budget item j
      let ds ← itemsOfJson? budget item rest
      return d :: ds

def entriesOfJson? (budget : Nat) (key value : Shape) :
    List (Json.Text × Json) → Option (List (Datum × Datum))
  | [] => some []
  | (name, j) :: rest => do
      let k ← ofKey? key name
      let d ← ofJson? budget value j
      let entries ← entriesOfJson? budget key value rest
      return (k, d) :: entries

/-- The fields of a record that is written as an array. -/
def rowOfJson? (budget : Nat) : List Field → List Json → Option (List Datum)
  | fields, [] => fields.mapM (·.default?)
  | [], _ :: _ => none
  | field :: fields, j :: rest => do
      let d ←
        if field.optional then
          match j with
          | .null => some Datum.absent
          | j => (ofJson? budget field.shape j).map .present
        else ofJson? budget field.shape j
      let ds ← rowOfJson? budget fields rest
      return d :: ds

/-- The known fields of an object with their names. -/
def fieldsOfJson? (budget : Nat) (fields : List Field) :
    List (Json.Text × Json) → Option (List (String × Datum))
  | [] => some []
  | (none, _) :: _ => none
  | (some name, j) :: rest =>
      match fields.find? (·.name = name) with
      | none => fieldsOfJson? budget fields rest
      | some field => do
          let d ←
            if field.optional then
              match j with
              | .null => some Datum.absent
              | j => (ofJson? budget field.shape j).map .present
            else ofJson? budget field.shape j
          let ds ← fieldsOfJson? budget fields rest
          if (ds.lookup name).isSome then none else return (name, d) :: ds

end

/-- How deeply arrays and objects may nest in a text that is read. -/
def levels : Nat := 127

end Datum

end ModelExport
