import ModelExport.Location

/-!
# Files

The files below a working directory. A file is written at a path by
making the folders that hold it and then replacing its content. A path
leads nowhere when a step goes through a file, when it leaves the working
directory, or when it does not end in the name of a file.
-/

namespace ModelExport

/-- The folders and files below a working directory, each by the names
that lead to it. -/
structure Files where
  folders : List (List String) := []
  files : List (List String × List UInt8) := []

namespace Files

/-- Why a path cannot be written to. -/
inductive Refusal where
  | throughFile
  | outside
  | notAFile
  deriving DecidableEq

def isFile (f : Files) (place : List String) : Bool := f.files.any (·.1 = place)

def isFolder (f : Files) (place : List String) : Bool :=
  place.isEmpty || f.folders.contains place

/-- Goes one step on from a folder, making the folder that it leads to. -/
def enter (f : Files) (place : List String) (step : Location.Step) :
    Except Refusal (List String × Files) :=
  match step with
  | .here => .ok (place, f)
  | .up => if place.isEmpty then .error .outside else .ok (place.dropLast, f)
  | .name s =>
      let next := place ++ [s]
      if f.isFile next then .error .throughFile
      else if f.isFolder next then .ok (next, f)
      else .ok (next, { f with folders := next :: f.folders })

/-- Goes all the steps, making every folder on the way. -/
def enterAll (f : Files) (place : List String) :
    List Location.Step → Except Refusal (List String × Files)
  | [] => .ok (place, f)
  | step :: rest => do
      let (place, f) ← f.enter place step
      enterAll f place rest

/-- The content of every file in place of the one of the name, or behind the others. -/
def put (f : Files) (place : List String) (content : List UInt8) : Files :=
  if f.isFile place then
    { f with files := f.files.map fun e => if e.1 = place then (place, content) else e }
  else { f with files := f.files ++ [(place, content)] }

/-- Whether the path ends in a name and not in a separator or a step that stays. -/
def endsInName (path : String) : Bool :=
  match (cutAt '/' path.toList).getLast? with
  | some part => part ≠ [] && part ≠ ['.'] && part ≠ ['.', '.']
  | none => false

/-- Replaces the content of the file at the path, after the folders that
hold it have been made. -/
def write (f : Files) (path : String) (content : List UInt8) : Except Refusal Files :=
  let location := Location.ofPath path
  if location.absolute then .error .outside
  else
    match location.steps.getLast? with
    | some (.name s) => do
        let (place, f) ← f.enterAll [] location.steps.dropLast
        if !endsInName path || f.isFolder (place ++ [s]) then .error .notAFile
        else return f.put (place ++ [s]) content
    | _ => .error .notAFile

/-- Every file by its path, in the order of the paths. -/
def listing (f : Files) : List (String × List UInt8) :=
  (f.files.map fun e => ("/".intercalate e.1, e.2)).mergeSort (fun a b => a.1 ≤ b.1)

end Files

end ModelExport
