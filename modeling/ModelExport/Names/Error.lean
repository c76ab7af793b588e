/-!
# Refused arguments

Why a name, a column or another argument is refused while a program is
built.
-/

namespace ModelExport

/-- Why an argument is refused. -/
inductive ArgumentError where
  /-- A name is to be derived from an empty stem. -/
  | emptyStem
  | emptyColumn
  | emptyVariable
  | emptyFunction
  /-- The key is to be bound to a name that nobody has taken. -/
  | unallocated (key name : String)
  /-- A stage refuses an argument for a reason of its own. -/
  | other (reason : String)
  deriving DecidableEq

namespace ArgumentError

def message : ArgumentError → String
  | .emptyStem => "Invalid argument: name prefix must not be empty"
  | .emptyColumn => "Invalid argument: column name must not be empty"
  | .emptyVariable => "Invalid argument: variable name must not be empty"
  | .emptyFunction => "Invalid argument: function name must not be empty"
  | .unallocated key name =>
      "Invalid argument: cannot bind '" ++ key ++ "' to unallocated name '" ++ name ++ "'"
  | .other reason => "Invalid argument: " ++ reason

end ArgumentError

end ModelExport
