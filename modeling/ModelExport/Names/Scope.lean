import ModelExport.Names.Pool

/-!
# Scopes

A scope is a pool of names together with bindings: each key, such as the
name of a column, may be bound to the name that stands for it now.
Binding a key again leaves the earlier name in the pool.
-/

namespace ModelExport

/-- A pool of names with the current name of each key. -/
structure Scope where
  pool : NamePool := {}
  /-- The bindings, latest first; for a key the latest counts. -/
  bindings : List (String × String) := []
  deriving DecidableEq

namespace Scope

def lookup? (s : Scope) (key : String) : Option String := s.bindings.lookup key

def isBound (s : Scope) (key : String) : Bool := (s.lookup? key).isSome

def contains (s : Scope) (name : String) : Bool := s.pool.contains name

/-- Takes a fresh name that no key is bound to. -/
def fresh (s : Scope) (stem : String) : Except ArgumentError (String × Scope) := do
  let (name, pool) ← s.pool.allocate stem
  return (name, { s with pool })

/-- Takes a fresh name derived from the key and binds the key to it. -/
def allocate (s : Scope) (key : String) : Except ArgumentError (String × Scope) := do
  let (name, pool) ← s.pool.allocate key
  return (name, { pool, bindings := (key, name) :: s.bindings })

/-- The name of the key; a key without one gets a fresh name. -/
def lookupOrAllocate (s : Scope) (key : String) : Except ArgumentError (String × Scope) :=
  match s.lookup? key with
  | some name => .ok (name, s)
  | none => s.allocate key

/-- Binds the key to a name that is taken already. -/
def bind (s : Scope) (key name : String) : Except ArgumentError Scope :=
  if s.contains name then .ok { s with bindings := (key, name) :: s.bindings }
  else .error (.unallocated key name)

/-- Takes exactly this name and binds no key; says whether it was free. -/
def reserve (s : Scope) (name : String) : Bool × Scope :=
  let (isNew, pool) := s.pool.reserve name
  (isNew, { s with pool })

end Scope

end ModelExport
