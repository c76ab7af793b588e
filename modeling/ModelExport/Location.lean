import ModelExport.Text.Blank

/-!
# Locations

A path names a place among files by the steps that lead there. Empty
steps and steps that stay where they are mean nothing, except that a
relative path may start by staying; a step up is kept, since what it means
depends on the files.
-/

namespace ModelExport

/-- A step of a path. -/
inductive Location.Step where
  | here
  | up
  | name (s : String)
  deriving DecidableEq

/-- What a path says. -/
structure Location where
  absolute : Bool
  steps : List Location.Step
  deriving DecidableEq

namespace Location

/-- The step that a part of a path stands for, if it means anything past the start. -/
def Step.ofPart? (part : List Char) : Option Step :=
  if part = [] then none
  else if part = ['.'] then none
  else if part = ['.', '.'] then some .up
  else some (.name (String.ofList part))

/-- What a path says. -/
def ofPath (path : String) : Location :=
  let parts := cutAt '/' path.toList
  let steps := parts.filterMap Step.ofPart?
  if path.toList.head? = some '/' then { absolute := true, steps }
  else if parts.head? = some ['.'] then { absolute := false, steps := .here :: steps }
  else { absolute := false, steps }

/-- The part of a name in front of its last point, unless nothing is there. -/
def stemOf (name : String) : String :=
  let parts := cutAt '.' name.toList
  let stem := ['.'].intercalate parts.dropLast
  if stem.isEmpty then name else String.ofList stem

/-- The name of the place without its ending, if the last step names it. -/
def stem? (l : Location) : Option String :=
  match l.steps.getLast? with
  | some (.name s) => some (stemOf s)
  | _ => none

/-- The place that holds this one, if a step leads from there. -/
def parent? (l : Location) : Option Location :=
  if l.steps.isEmpty then none else some { l with steps := l.steps.dropLast }

end Location

end ModelExport
