import ModelExport.Context.Basic

/-!
# Calls on a context

The operations of a context as data. `Call.perform` runs one of them, and
`Call.run` runs a list of them, where a call that fails leaves the
context as it then is and the next call goes on. Whatever holds of every
`run` holds of every stage that works through these operations.
-/

namespace ModelExport

/-- One operation on a context, with its arguments. -/
inductive Call where
  | declareRef (stem : String)
  | operatorName (stem : String)
  | variableName (column : String)
  | lookupOrAllocate (column : String)
  | addIntermediate (type : ColumnType) (column : String)
  | addInput (type : ColumnType) (column : String)
  | addOutput (type : ColumnType) (column : String)
  | declare (value : Value) (name : Option String)
  | access (container : Expr) (path : List Expr) (fallback : Option Expr) (name : Option String)
  | bindColumn (column name : String)
  | addExpr (e : Expr)
  | addExprs (es : List Expr)
  | addFunction (f : Function)
  | reference (name : String)
  | definition (name : String)
  | containsColumn (column : String)
  | isOutput (name : String)
  | inputs
  | outputs
  | body
  | functions
  | types

/-- What an operation answers. -/
inductive Answer where
  | done
  | name (name : String)
  | flag (b : Bool)
  | expr (e : Option Expr)
  | parameters (ps : List Parameter)
  | exprs (es : List Expr)
  | functions (fs : List Function)
  | types (t : Table Descriptor)

namespace Call

def perform : Call → Build Answer
  | .declareRef stem => Answer.name <$> Build.declareRef stem
  | .operatorName stem => Answer.name <$> Build.operatorName stem
  | .variableName column => Answer.name <$> Build.variableName column
  | .lookupOrAllocate column => Answer.name <$> Build.lookupOrAllocate column
  | .addIntermediate type column => Answer.name <$> Build.addIntermediate type column
  | .addInput type column => Answer.name <$> Build.addInput type column
  | .addOutput type column => Answer.name <$> Build.addOutput type column
  | .declare value name => Answer.name <$> Build.declare value name
  | .access container path fallback name =>
      Answer.name <$> Build.access container path fallback name
  | .bindColumn column name => do Build.bindColumn column name; return .done
  | .addExpr e => do Build.addExpr e; return .done
  | .addExprs es => do Build.addExprs es; return .done
  | .addFunction f => do Build.addFunction f; return .done
  | .reference name => do return .expr ((← get).reference? name)
  | .definition name => do return .expr ((← get).definition? name)
  | .containsColumn column => do return .flag ((← get).containsColumn column)
  | .isOutput name => do return .flag ((← get).isOutput name)
  | .inputs => do return .parameters (← get).inputs
  | .outputs => do return .parameters (← get).outputs
  | .body => do return .exprs (← get).body
  | .functions => do return .functions (← get).functions
  | .types => do return .types (← get).types

/-- What the call answers and the context after it. -/
def step (call : Call) (c : Context) : Except BuildError Answer × Context :=
  match call.perform c with
  | .ok a c => (.ok a, c)
  | .error e c => (.error e, c)

/-- What the calls answer, one after the other, and the context after the last. -/
def run : List Call → Context → List (Except BuildError Answer) × Context
  | [], c => ([], c)
  | call :: calls, c =>
      let (answer, c) := call.step c
      let (answers, c) := run calls c
      (answer :: answers, c)

end Call

end ModelExport
