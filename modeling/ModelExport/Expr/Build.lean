import ModelExport.Expr.Basic
import ModelExport.Expr.Operator

/-!
# Building expressions

The checked constructors, which refuse a statement that introduces no
name, a loop without a variable and an access without a path, and the
common shapes on top of the plain ones.
-/

namespace ModelExport

namespace Expr

/-! ## Checked constructors -/

/-- Introduces the names, of which there has to be one. -/
def bindAll (bindings : List Binding) : Except ValueError Expr :=
  if bindings.isEmpty then .error .emptyLet else .ok (.bind bindings)

/-- A counting loop over variables, of which there has to be one. -/
def loopOver (inits : List Binding) (condition : Expr) (body step : List Expr) :
    Except ValueError Expr :=
  if inits.isEmpty then .error .emptyLoop else .ok (.loop inits condition body step)

/-- Follows the path, which has to lead somewhere. -/
def accessAt (container : Expr) (path : List Expr) (fallback : Option Expr) :
    Except ValueError Expr :=
  if path.isEmpty then .error .emptyPath else .ok (.access container path fallback)

/-! ## Common shapes -/

/-- Introduces one name. -/
def bindOne (name : String) (value : Expr) : Expr := .bind [.mk name value]

def callOperator (op : Operator) (args : List Expr) : Expr := .call (.function op.name) args

def binary (op : Operator) (left right : Expr) : Expr := callOperator op [left, right]

/-- Adds a constant to a variable. -/
def increment (name : String) (amount : Int64) : Expr :=
  .assign name (binary .add (.variable name) (.literal (.int64 amount)))

/-- Counts a variable up from `start` while it is less than `stop`. -/
def countUp (counter : String) (start stop step : Int64) (body : List Expr) : Expr :=
  .loop [.mk counter (.literal (.int64 start))]
    (binary .less (.variable counter) (.literal (.int64 stop))) body [increment counter step]

/-- The access by a constant index. -/
def index (container : Expr) (i : Int64) : Expr :=
  .access container [.literal (.int64 i)] none

end Expr

end ModelExport
