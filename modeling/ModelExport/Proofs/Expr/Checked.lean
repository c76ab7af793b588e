import ModelExport.Expr.Build
import ModelExport.Model

/-!
# What the checked constructors refuse

An expression can be written down that no checked constructor gives: a
statement that introduces no name, a loop without a variable, an access
without a path, a tensor whose extents do not fit its elements.
`Expr.rebuilt` gives the parts of an expression to the constructor of its
form once more, `Expr.refusal?` is what that one has against them. The
refusals of a model are those of all expressions in it, at any depth.
-/

namespace ModelExport

namespace Tensor

/-- What is wrong with so many elements under the extents. -/
def misfit? (dims : List UInt64) (count : Nat) : Option ValueError :=
  match cellCount? dims with
  | none => some (.extentOverflow dims)
  | some expected =>
      if dims.isEmpty ∨ expected.toNat ≠ count then
        some (.shapeMismatch expected.toNat count)
      else none

theorem ofData_eq (dims : List UInt64) (data : TensorData) :
    ofData dims data = match misfit? dims data.size with
      | none => .ok { dims, data }
      | some r => .error r := by
  unfold ofData misfit?
  cases cellCount? dims with
  | none => rfl
  | some expected =>
      dsimp only
      split <;> rfl

end Tensor

namespace Expr

/-! ## The expressions inside -/

mutual

/-- The expressions that the expression consists of, itself first. -/
def parts : Expr → List Expr
  | .call target args => .call target args :: (target.parts ++ partsOfAll args)
  | .bind bindings => .bind bindings :: partsOfBindings bindings
  | .assign name value => .assign name value :: value.parts
  | .loop inits condition body step =>
      .loop inits condition body step ::
        (partsOfBindings inits ++ (condition.parts ++ (partsOfAll body ++ partsOfAll step)))
  | .each iterator sequence body =>
      .each iterator sequence body :: (sequence.parts ++ partsOfAll body)
  | .branch condition thenBody none =>
      .branch condition thenBody none :: (condition.parts ++ partsOfAll thenBody)
  | .branch condition thenBody (some elseBody) =>
      .branch condition thenBody (some elseBody) ::
        (condition.parts ++ (partsOfAll thenBody ++ partsOfAll elseBody))
  | .access container path none =>
      .access container path none :: (container.parts ++ partsOfAll path)
  | .access container path (some fallback) =>
      .access container path (some fallback) ::
        (container.parts ++ (partsOfAll path ++ fallback.parts))
  | .lambda params body => .lambda params body :: partsOfAll body
  | e => [e]

def partsOfAll : List Expr → List Expr
  | [] => []
  | e :: rest => e.parts ++ partsOfAll rest

def partsOfBindings : List Binding → List Expr
  | [] => []
  | .mk _ value :: rest => value.parts ++ partsOfBindings rest

end

/-! ## Building again -/

/-- What the checked constructor of the form makes of the parts. -/
def rebuilt : Expr → Except ValueError Expr
  | .literal (.tensor t) => (fun t => .literal (.tensor t)) <$> Tensor.ofData t.dims t.data
  | .bind bindings => bindAll bindings
  | .loop inits condition body step => loopOver inits condition body step
  | .access container path fallback => accessAt container path fallback
  | e => .ok e

/-- What the checked constructor of the form has against the parts. -/
def refusal? (e : Expr) : Option ValueError :=
  match e.rebuilt with
  | .ok _ => none
  | .error r => some r

theorem rebuilt_tensor (t : Tensor) :
    (literal (.tensor t)).rebuilt = match Tensor.misfit? t.dims t.data.size with
      | none => .ok (literal (.tensor t))
      | some r => .error r := by
  show (fun t => literal (.tensor t)) <$> Tensor.ofData t.dims t.data = _
  rw [Tensor.ofData_eq]
  cases Tensor.misfit? t.dims t.data.size <;> rfl

/-- Four forms are refused for what they lack, the others never. -/
theorem refusal?_eq (e : Expr) :
    e.refusal? = match e with
      | .literal (.tensor t) => Tensor.misfit? t.dims t.data.size
      | .bind [] => some .emptyLet
      | .loop [] _ _ _ => some .emptyLoop
      | .access _ [] _ => some .emptyPath
      | _ => none := by
  cases e with
  | literal v =>
      cases v with
      | tensor t =>
          rw [refusal?, rebuilt_tensor]
          cases h : Tensor.misfit? t.dims t.data.size <;> simp [h]
      | _ => rfl
  | bind bindings => cases bindings <;> rfl
  | loop inits _ _ _ => cases inits <;> rfl
  | access _ path _ => cases path <;> rfl
  | _ => rfl

/-- A constructor that does not refuse the parts changes none of them. -/
theorem rebuilt_eq (e : Expr) :
    e.rebuilt = match e.refusal? with
      | none => .ok e
      | some r => .error r := by
  cases e with
  | literal v =>
      cases v with
      | tensor t => rw [rebuilt_tensor, refusal?_eq]
      | _ => rfl
  | bind bindings => cases bindings <;> rfl
  | loop inits _ _ _ => cases inits <;> rfl
  | access _ path _ => cases path <;> rfl
  | _ => rfl

theorem refusal?_eq_none_iff (e : Expr) : e.refusal? = none ↔ e.rebuilt = .ok e := by
  rw [rebuilt_eq]
  cases e.refusal? <;> simp

end Expr

namespace Model

variable (m : Model)

/-- The expressions of the body and of the bodies of the functions. -/
def expressions : List Expr :=
  Expr.partsOfAll m.program.body ++ m.program.functions.flatMap fun f => Expr.partsOfAll f.body

/-- What the checked constructors have against the expressions, one by one. -/
def refusals : List ValueError := m.expressions.filterMap Expr.refusal?

theorem refusals_eq_nil_iff : m.refusals = [] ↔ ∀ e ∈ m.expressions, e.rebuilt = .ok e := by
  simp only [refusals, List.filterMap_eq_nil_iff, Expr.refusal?_eq_none_iff]

end Model

end ModelExport
