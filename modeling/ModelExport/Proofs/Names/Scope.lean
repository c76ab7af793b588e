import ModelExport.Names.Scope
import ModelExport.Proofs.Names.Pool

/-!
# The operations on a scope in closed form

The scopes behind the operations have names of their own: `Scope.taking` has
a fresh name, `Scope.binding` has a key bound to a name, `Scope.claiming` has
the name that a caller chose, or a fresh one. What the operations answer is
said in their terms, and so is what they do to the names and to the keys.
-/

namespace ModelExport

namespace Scope

/-- The scope after it gave a fresh name for the stem. -/
def taking (s : Scope) (stem : String) : Scope := { s with pool := s.pool.taking stem }

def binding (s : Scope) (key name : String) : Scope :=
  { s with bindings := (key, name) :: s.bindings }

/-- The name for a caller who may have chosen one, and the scope that has it. -/
def claiming (s : Scope) (stem : String) : Option String → String × Scope
  | none => (s.pool.pick stem, s.taking stem)
  | some name => (name, (s.reserve name).2)

/-! ## Operations -/

theorem fresh_eq (s : Scope) {stem : String} (h : stem ≠ "") :
    s.fresh stem = .ok (s.pool.pick stem, s.taking stem) := by
  rw [fresh, NamePool.allocate_eq _ h]
  rfl

theorem allocate_eq (s : Scope) {key : String} (h : key ≠ "") :
    s.allocate key = .ok (s.pool.pick key, (s.taking key).binding key (s.pool.pick key)) := by
  rw [allocate, NamePool.allocate_eq _ h]
  rfl

/-! ## Names -/

@[simp] theorem pool_taking (s : Scope) (stem : String) :
    (s.taking stem).pool = s.pool.taking stem := rfl

@[simp] theorem pool_binding (s : Scope) (key name : String) :
    (s.binding key name).pool = s.pool := rfl

@[simp] theorem pool_reserve (s : Scope) (name : String) :
    (s.reserve name).2.pool = (s.pool.reserve name).2 := rfl

theorem mem_names_claiming (s : Scope) (stem : String) (name : Option String) (n : String) :
    n ∈ (s.claiming stem name).2.pool.names ↔ n = (s.claiming stem name).1 ∨ n ∈ s.pool.names := by
  cases name with
  | none => exact List.mem_cons
  | some name => exact NamePool.mem_names_reserve s.pool name n

theorem subset_taking (s : Scope) (stem : String) : s.pool.names ⊆ (s.taking stem).pool.names :=
  List.subset_cons_self _ _

theorem subset_claiming (s : Scope) (stem : String) (name : Option String) :
    s.pool.names ⊆ (s.claiming stem name).2.pool.names :=
  fun n hn => (s.mem_names_claiming stem name n).mpr (Or.inr hn)

theorem claiming_ne_empty (s : Scope) {stem : String} (hstem : stem ≠ "") {name : Option String}
    (h : name ≠ some "") : (s.claiming stem name).1 ≠ "" := by
  cases name with
  | none => exact NamePool.pick_ne_empty s.pool hstem
  | some name => exact fun hempty => h (congrArg some hempty)

/-! ## Keys -/

@[simp] theorem bindings_taking (s : Scope) (stem : String) :
    (s.taking stem).bindings = s.bindings := rfl

@[simp] theorem bindings_claiming (s : Scope) (stem : String) (name : Option String) :
    (s.claiming stem name).2.bindings = s.bindings := by
  cases name <;> rfl

theorem lookup?_of_same {s s' : Scope} (h : s'.bindings = s.bindings) (key : String) :
    s'.lookup? key = s.lookup? key := by
  unfold lookup?
  rw [h]

theorem lookup?_of_binding {s s' : Scope} {key name : String}
    (h : s'.bindings = (key, name) :: s.bindings) (other : String) :
    s'.lookup? other = if other = key then some name else s.lookup? other := by
  unfold lookup?
  rw [h, lookup_cons_ite]

end Scope

end ModelExport
