import ModelExport.Column.Type

/-!
# Schemas

A schema is an ordered list of columns. Appending a column hides every
earlier column of the same name, also when the new one is itself hidden,
so among the columns appended one by one a name is visible at most once.
Schemas that are read from a file are taken as they stand.
-/

namespace ModelExport

/-- A named column. Hidden columns stay in the schema and are not seen by later stages. -/
structure Column where
  name : String
  type : ColumnType
  hidden : Bool := false
  deriving DecidableEq

namespace Column

/-- The column, hidden if it bears the name. -/
def hideIf (name : String) (c : Column) : Column :=
  if c.name = name then { c with hidden := true } else c

end Column

/-- An ordered list of columns. -/
structure Schema where
  columns : List Column := []
  deriving DecidableEq

namespace Schema

/-- Appends a column and hides its earlier namesakes. -/
def push (s : Schema) (c : Column) : Schema :=
  ⟨s.columns.map (Column.hideIf c.name) ++ [c]⟩

/-- Appends a visible column. -/
def withColumn (s : Schema) (name : String) (type : ColumnType) : Schema :=
  s.push { name, type }

/-- Appends every column of the other schema, in order and with its flag. -/
def extend (s t : Schema) : Schema :=
  t.columns.foldl push s

/-- The schema that arises when the columns are appended one by one. -/
def ofColumns (columns : List Column) : Schema :=
  columns.foldl push {}

/-- The columns that later stages see, in schema order. -/
def visible (s : Schema) : List Column :=
  s.columns.filter (!·.hidden)

/-- The first visible column of the name. -/
def column? (s : Schema) (name : String) : Option Column :=
  s.visible.find? (·.name = name)

theorem visible_push (s : Schema) (c : Column) :
    (s.push c).visible = s.visible.filter (·.name ≠ c.name) ++ (if c.hidden then [] else [c]) := by
  unfold push visible
  rw [List.filter_append]
  congr 1
  · induction s.columns with
    | nil => rfl
    | cons d ds ih =>
        by_cases hn : d.name = c.name
        · cases hd : d.hidden <;> simp_all [Column.hideIf]
        · cases hd : d.hidden <;> simp_all [Column.hideIf]
  · cases h : c.hidden <;> simp [h]

end Schema

end ModelExport
