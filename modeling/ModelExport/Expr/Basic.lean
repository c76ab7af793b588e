import ModelExport.Descriptor

/-!
# Expressions

The language of exported programs: literals, references, calls,
statements that introduce or overwrite names, loops, conditionals,
access into containers, anonymous functions and comments. The type
carries no conditions; the checked ways to build an expression are in
`ModelExport.Expr.Build`.
-/

namespace ModelExport

/-- A named parameter of a program or a function. -/
structure Parameter where
  name : String
  type : Descriptor
  doc : String := ""
  variadic : Bool := false
  deriving DecidableEq

mutual

/-- An expression or statement. -/
inductive Expr where
  | literal (value : Value)
  | variable (name : String)
  | function (name : String)
  | call (target : Expr) (args : List Expr)
  /-- Introduces new names, in order. -/
  | bind (bindings : List Binding)
  /-- Overwrites the value under a name that is in scope. -/
  | assign (name : String) (value : Expr)
  /-- Binds the variables, then runs body and step while the condition holds. -/
  | loop (inits : List Binding) (condition : Expr) (body step : List Expr)
  /-- Runs the body once for each element of the sequence. -/
  | each (iterator : String) (sequence : Expr) (body : List Expr)
  | branch (condition : Expr) (thenBody : List Expr) (elseBody : Option (List Expr))
  /-- Follows a path into a container; the fallback stands where the path ends early. -/
  | access (container : Expr) (path : List Expr) (fallback : Option Expr)
  | lambda (params : List Parameter) (body : List Expr)
  | comment (text : String)

/-- A name with the expression that it is bound to. -/
inductive Binding where
  | mk (name : String) (value : Expr)

end

namespace Binding

def name : Binding → String
  | .mk name _ => name

def value : Binding → Expr
  | .mk _ value => value

end Binding

namespace Expr

/-- The name of the form of the expression. -/
def form : Expr → String
  | .literal _ => "Literal"
  | .variable _ => "VariableRef"
  | .function _ => "FunctionRef"
  | .call _ _ => "Call"
  | .bind _ => "Let"
  | .assign _ _ => "Set"
  | .loop _ _ _ _ => "For"
  | .each _ _ _ => "ForEach"
  | .branch _ _ _ => "If"
  | .access _ _ _ => "ElementAccess"
  | .lambda _ _ => "Lambda"
  | .comment _ => "Comment"

/-- The names that the statement itself introduces or overwrites. -/
def boundNames : Expr → List String
  | .bind bindings => bindings.map Binding.name
  | .assign name _ => [name]
  | _ => []

end Expr

end ModelExport
