/-!
# Extents

Vector columns and tensors say how many cells they have by a list of
64-bit extents. The count is the product of the extents, multiplied up
from the left; it is given up at the first partial product that does not
fit 64 bits, so a zero that comes later no longer rescues it.
-/

namespace ModelExport

/-- The product of two extents, unless it leaves 64 bits. -/
def mulExtent? (a b : UInt64) : Option UInt64 :=
  if a.toNat * b.toNat < UInt64.size then some (a * b) else none

/-- The number of cells that the extents describe, unless a partial
product leaves 64 bits. No extent at all describes one cell. -/
def cellCount? (dims : List UInt64) : Option UInt64 :=
  dims.foldlM mulExtent? 1

theorem mulExtent?_eq_some {a b c : UInt64} :
    mulExtent? a b = some c ↔ c.toNat = a.toNat * b.toNat := by
  unfold mulExtent?
  constructor
  · intro h
    split at h
    · next hlt =>
        simp only [Option.some.injEq] at h
        subst h
        rw [UInt64.toNat_mul, Nat.mod_eq_of_lt hlt]
    · simp at h
  · intro h
    have hlt : a.toNat * b.toNat < UInt64.size := h ▸ c.toNat_lt_size
    rw [if_pos hlt]
    simp only [Option.some.injEq]
    apply UInt64.toNat_inj.mp
    rw [UInt64.toNat_mul, Nat.mod_eq_of_lt hlt, h]

end ModelExport
