/-!
# Operators

The functions that every interpreter of an exported program knows. A
program calls an operator through a reference to its name.
-/

namespace ModelExport

/-- A function known to every interpreter. -/
inductive Operator where
  | less | lessOrEqual | greater | greaterOrEqual | equal | notEqual
  | add | sub | mul | div
  | and | or | not
  | size | append | range
  deriving DecidableEq

namespace Operator

/-- All operators; the position of an operator in this list is its number in stored files. -/
def all : List Operator :=
  [.less, .lessOrEqual, .greater, .greaterOrEqual, .equal, .notEqual,
   .add, .sub, .mul, .div, .and, .or, .not, .size, .append, .range]

/-- The name under which a program refers to the operator. -/
def name : Operator → String
  | .less => "Less"
  | .lessOrEqual => "LessOrEqual"
  | .greater => "Greater"
  | .greaterOrEqual => "GreaterOrEqual"
  | .equal => "Equal"
  | .notEqual => "NotEqual"
  | .add => "Add"
  | .sub => "Sub"
  | .mul => "Mul"
  | .div => "Div"
  | .and => "And"
  | .or => "Or"
  | .not => "Not"
  | .size => "Size"
  | .append => "Append"
  | .range => "Range"

def ofName? (name : String) : Option Operator :=
  all.find? (·.name = name)

/-- The number of arguments. -/
def arity : Operator → Nat
  | .not | .size => 1
  | _ => 2

def isComparison : Operator → Bool
  | .less | .lessOrEqual | .greater | .greaterOrEqual | .equal | .notEqual => true
  | _ => false

def isArithmetic : Operator → Bool
  | .add | .sub | .mul | .div => true
  | _ => false

def isLogical : Operator → Bool
  | .and | .or | .not => true
  | _ => false

theorem ofName?_name (op : Operator) : ofName? op.name = some op := by
  cases op <;> decide

end Operator

end ModelExport
