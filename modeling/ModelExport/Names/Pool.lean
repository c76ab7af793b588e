import ModelExport.Decimal.Digits
import ModelExport.Names.Error

/-!
# Name pools

A pool is the set of names that are taken in one namespace. A fresh name
is derived from a stem: the stem itself when it is free, otherwise the
stem followed by the least positive number that makes a free name. Names
are never given back.

For each stem the pool remembers from which number on a free one can be
found, so that a stem which is asked for again and again is not searched
from the start. That changes no answer: every number below was taken when
the search passed it, and no name becomes free again.
-/

namespace ModelExport

/-- The names taken in one namespace. -/
structure NamePool where
  /-- The names, last taken first. -/
  names : List String := []
  /-- For a stem, the number below which no suffix is free; the latest entry counts. -/
  hints : List (String × Nat) := []
  deriving DecidableEq

namespace NamePool

/-- The stem with a number behind it. -/
def suffixed (stem : String) (k : Nat) : String := stem ++ decimal k

/-- The first number from `k` on whose suffixed stem is not among the
names, looked for over at most `bound` numbers that are taken. -/
def firstFree (names : List String) (stem : String) : Nat → Nat → Nat
  | 0, k => k
  | bound + 1, k =>
      if names.contains (suffixed stem k) then firstFree names stem bound (k + 1) else k

def contains (p : NamePool) (name : String) : Bool := p.names.contains name

def size (p : NamePool) : Nat := p.names.length

def isEmpty (p : NamePool) : Bool := p.names.isEmpty

/-- The number from which the search for a suffix of the stem starts. -/
def hint (p : NamePool) (stem : String) : Nat := (p.hints.lookup stem).getD 1

/-- Takes exactly this name; says whether it was free. -/
def reserve (p : NamePool) (name : String) : Bool × NamePool :=
  if p.contains name then (false, p) else (true, { p with names := name :: p.names })

/-- Takes a fresh name derived from the stem. As many numbers as there
are names suffice for the search, since different numbers give different
names. -/
def allocate (p : NamePool) (stem : String) : Except ArgumentError (String × NamePool) :=
  if stem = "" then .error .emptyStem
  else if p.contains stem then
    let k := firstFree p.names stem p.size (p.hint stem)
    let name := suffixed stem k
    .ok (name, { names := name :: p.names, hints := (stem, k + 1) :: p.hints })
  else .ok (stem, { p with names := stem :: p.names })

end NamePool

end ModelExport
