import ModelExport.Expr.Basic
import ModelExport.Expr.Operator
import ModelExport.Wire.Value

/-!
# Stored expressions
-/

namespace ModelExport

namespace Operator

def toDatum (op : Operator) : Datum := .ofPosition all op

def ofDatum? (d : Datum) : Option Operator := d.position? all

instance : Wire Operator := ⟨.operator, toDatum, ofDatum?⟩

end Operator

namespace Parameter

def toDatum (p : Parameter) : Datum :=
  .record [.text p.name, p.type.toDatum, .text p.doc, .bool p.variadic]

def ofDatum? : Datum → Option Parameter
  | .record [.text name, type, .text doc, .bool variadic] =>
      (Descriptor.ofDatum? type).map fun type => { name, type, doc, variadic }
  | _ => none

instance : Wire Parameter := ⟨.parameter, toDatum, ofDatum?⟩

end Parameter

namespace Expr

/-! ## Writing -/

mutual

def toDatum : Expr → Datum
  | .literal value => .variant 0 value.toDatum
  | .variable name => .variant 1 (.text name)
  | .function name => .variant 2 (.text name)
  | .call target args => .variant 3 (.record [target.toDatum, .list (toData args)])
  | .bind bindings => .variant 4 (.list (bindingsToData bindings))
  | .assign name value => .variant 5 (.record [.text name, value.toDatum])
  | .loop inits condition body step =>
      .variant 6 (.record
        [.list (bindingsToData inits), condition.toDatum, .list (toData body), .list (toData step)])
  | .each iterator sequence body =>
      .variant 7 (.record [.text iterator, sequence.toDatum, .list (toData body)])
  | .branch condition thenBody none =>
      .variant 8 (.record [condition.toDatum, .list (toData thenBody), .absent])
  | .branch condition thenBody (some elseBody) =>
      .variant 8 (.record
        [condition.toDatum, .list (toData thenBody), .present (.list (toData elseBody))])
  | .access container path none =>
      .variant 9 (.record [container.toDatum, .list (toData path), .absent])
  | .access container path (some fallback) =>
      .variant 9 (.record [container.toDatum, .list (toData path), .present fallback.toDatum])
  | .lambda params body =>
      .variant 10 (.record [.list (params.map Parameter.toDatum), .list (toData body)])
  | .comment text => .variant 11 (.text text)

def toData : List Expr → List Datum
  | [] => []
  | e :: rest => e.toDatum :: toData rest

def bindingToDatum : Binding → Datum
  | .mk name value => .record [.text name, value.toDatum]

def bindingsToData : List Binding → List Datum
  | [] => []
  | b :: rest => bindingToDatum b :: bindingsToData rest

end

/-! ## Reading -/

mutual

def ofDatum? : Datum → Option Expr
  | .variant 0 value => (Value.ofDatum? value).map .literal
  | .variant 1 (.text name) => some (.variable name)
  | .variant 2 (.text name) => some (.function name)
  | .variant 3 (.record [target, .list args]) => do
      return .call (← ofDatum? target) (← ofData? args)
  | .variant 4 (.list bindings) => (bindingsOfData? bindings).map .bind
  | .variant 5 (.record [.text name, value]) => (ofDatum? value).map (.assign name)
  | .variant 6 (.record [.list inits, condition, .list body, .list step]) => do
      return .loop (← bindingsOfData? inits) (← ofDatum? condition) (← ofData? body)
        (← ofData? step)
  | .variant 7 (.record [.text iterator, sequence, .list body]) => do
      return .each iterator (← ofDatum? sequence) (← ofData? body)
  | .variant 8 (.record [condition, .list thenBody, .absent]) => do
      return .branch (← ofDatum? condition) (← ofData? thenBody) none
  | .variant 8 (.record [condition, .list thenBody, .present (.list elseBody)]) => do
      return .branch (← ofDatum? condition) (← ofData? thenBody) (some (← ofData? elseBody))
  | .variant 9 (.record [container, .list path, .absent]) => do
      return .access (← ofDatum? container) (← ofData? path) none
  | .variant 9 (.record [container, .list path, .present fallback]) => do
      return .access (← ofDatum? container) (← ofData? path) (some (← ofDatum? fallback))
  | .variant 10 (.record [params, .list body]) => do
      return .lambda (← params.items? Parameter.ofDatum?) (← ofData? body)
  | .variant 11 (.text text) => some (.comment text)
  | _ => none

def ofData? : List Datum → Option (List Expr)
  | [] => some []
  | d :: rest => do
      let e ← ofDatum? d
      let es ← ofData? rest
      return e :: es

def bindingsOfData? : List Datum → Option (List Binding)
  | [] => some []
  | .record [.text name, value] :: rest => do
      let e ← ofDatum? value
      let bindings ← bindingsOfData? rest
      return .mk name e :: bindings
  | _ => none

end

instance : Wire Expr := ⟨.expression, toDatum, ofDatum?⟩

end Expr

end ModelExport
