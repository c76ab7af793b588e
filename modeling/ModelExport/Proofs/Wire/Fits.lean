import ModelExport.Wire.Layout

/-!
# Data of a shape

`Datum.Fits` says that a datum consists of what the layouts demand of its
shape. Both notations are led by the layouts, and what a reader gives back
is proved by induction on this relation.

What the layouts have in common stands first: no name is used twice side
by side, a choice has few cases, and a record starts with a field that is
no entity. Of the last one the binary notation makes use, where an entity
inside another one has to start later than it.
-/

namespace ModelExport

/-! ## What the layouts have in common -/

def Shape.isEntity : Shape → Bool
  | .entity _ => true
  | _ => false

/-- The names of the fields that a case holds. -/
def Content.fieldNames : Content → List String
  | .fields fs => fs.map (·.name)
  | _ => []

namespace Entity

variable {e : Entity} {fields : List Field} {cases : List Case}

theorem nodup_fieldNames (h : e.layout = .record fields) : (fields.map (·.name)).Nodup := by
  cases e <;> cases h <;> decide

theorem nodup_caseNames (h : e.layout = .choice cases) : (cases.map (·.name)).Nodup := by
  cases e <;> cases h <;> decide

theorem nodup_contentNames (h : e.layout = .choice cases) :
    ∀ c ∈ cases, c.content.fieldNames.Nodup := by
  cases e <;> cases h <;> decide

theorem length_cases_le (h : e.layout = .choice cases) : cases.length ≤ 16 := by
  cases e <;> cases h <;> decide

theorem exists_first_field (h : e.layout = .record fields) :
    ∃ first rest, fields = first :: rest ∧ first.shape.isEntity = false := by
  cases e <;> cases h <;> exact ⟨_, _, rfl, rfl⟩

end Entity

namespace Datum

/-! ## Fitting data -/

mutual

/-- The datum is one of the shape. -/
inductive Fits : Shape → Datum → Prop
  | bool (b : Bool) : Fits .bool (.bool b)
  | uint (n : UInt64) : Fits .uint (.uint n)
  | int (n : Int64) : Fits .int (.int n)
  | single (x : Single) : Fits .single (.single x)
  | text (s : String) : Fits .text (.text s)
  | list {item : Shape} {items : List Datum} (h : ∀ d ∈ items, Fits item d) :
      Fits (.list item) (.list items)
  | table {key value : Shape} {entries : List (Datum × Datum)}
      (hkeys : ∀ e ∈ entries, Fits key e.1) (hvalues : ∀ e ∈ entries, Fits value e.2) :
      Fits (.table key value) (.table entries)
  | record {e : Entity} {fields : List Field} {ds : List Datum} (he : e.layout = .record fields)
      (h : FieldsFit fields ds) : Fits (.entity e) (.record ds)
  | variant {e : Entity} {cases : List Case} {index : Nat} {c : Case} {content : Datum}
      (he : e.layout = .choice cases) (hc : cases[index]? = some c)
      (h : ContentFits c.content content) : Fits (.entity e) (.variant index content)

/-- The datum is one that a field may hold. -/
inductive FieldFits : Field → Datum → Prop
  | required {field : Field} {d : Datum} (hopt : field.optional = false)
      (h : Fits field.shape d) : FieldFits field d
  | absent {field : Field} (hopt : field.optional = true) : FieldFits field .absent
  | present {field : Field} {d : Datum} (hopt : field.optional = true)
      (h : Fits field.shape d) : FieldFits field (.present d)

/-- The data are what the fields may hold, one after the other. -/
inductive FieldsFit : List Field → List Datum → Prop
  | nil : FieldsFit [] []
  | cons {field : Field} {fields : List Field} {d : Datum} {ds : List Datum}
      (h : FieldFits field d) (hrest : FieldsFit fields ds) : FieldsFit (field :: fields) (d :: ds)

/-- The datum is what a case holds. -/
inductive ContentFits : Content → Datum → Prop
  | empty : ContentFits .empty (.record [])
  | one {shape : Shape} {d : Datum} (h : Fits shape d) : ContentFits (.one shape) d
  | fields {fields : List Field} {ds : List Datum} (h : FieldsFit fields ds) :
      ContentFits (.fields fields) (.record ds)

end

/-! ## The data inside a datum -/

mutual

/-- The datum itself and all data inside it. -/
def subdata : Datum → List Datum
  | .present d => .present d :: d.subdata
  | .list items => .list items :: subdataOfItems items
  | .table entries => .table entries :: subdataOfEntries entries
  | .record fields => .record fields :: subdataOfItems fields
  | .variant index content => .variant index content :: content.subdata
  | d => [d]

def subdataOfItems : List Datum → List Datum
  | [] => []
  | d :: rest => d.subdata ++ subdataOfItems rest

def subdataOfEntries : List (Datum × Datum) → List Datum
  | [] => []
  | (k, v) :: rest => k.subdata ++ (v.subdata ++ subdataOfEntries rest)

end

/-- The numbers of 32 bits in the datum. -/
def singles (d : Datum) : List Single := d.subdata.filterMap single?

theorem mem_singles {d : Datum} {x : Single} (h : .single x ∈ d.subdata) : x ∈ d.singles :=
  List.mem_filterMap.mpr ⟨_, h, rfl⟩

theorem mem_subdata_self (d : Datum) : d ∈ d.subdata := by
  cases d <;> simp [subdata]

theorem subdata_subset_of_mem {items : List Datum} {d : Datum} (h : d ∈ items) :
    d.subdata ⊆ subdataOfItems items := by
  induction items with
  | nil => cases h
  | cons first rest ih =>
      rcases List.mem_cons.mp h with rfl | h
      · exact List.subset_append_left _ _
      · exact List.subset_append_of_subset_right _ (ih h)

theorem subdata_subset_of_mem_entries {entries : List (Datum × Datum)} {e : Datum × Datum}
    (h : e ∈ entries) : e.1.subdata ++ e.2.subdata ⊆ subdataOfEntries entries := by
  induction entries with
  | nil => cases h
  | cons first rest ih =>
      rw [subdataOfEntries, ← List.append_assoc]
      rcases List.mem_cons.mp h with rfl | h
      · exact List.subset_append_left _ _
      · exact List.subset_append_of_subset_right _ (ih h)

end Datum

end ModelExport
