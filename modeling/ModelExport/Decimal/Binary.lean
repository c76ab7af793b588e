/-!
# Binary floating-point values

A finite value of a binary format is a natural number times a power of
two. `BinaryFormat.round` takes an exact quotient to the nearest value of
a format, an exact tie to the even neighbour. Everything is computed on
natural numbers, so the result is the one the definition of the format
demands.
-/

namespace ModelExport

/-- A binary format: the number of bits of a significand, the exponent of
the least positive value, and the exponent from which on nothing finite
lies. -/
structure BinaryFormat where
  precision : Nat
  minExp : Int
  maxExp : Int

namespace BinaryFormat

/-- The format of 32 bits. -/
def single : BinaryFormat := ⟨24, -149, 128⟩

/-- The format of 64 bits. -/
def double : BinaryFormat := ⟨53, -1074, 1024⟩

end BinaryFormat

/-- The value `significand * 2 ^ exponent`. -/
structure Binary where
  significand : Nat
  exponent : Int
  deriving DecidableEq

namespace Binary

/-- The value as a quotient of natural numbers: the numerator. -/
def num (x : Binary) : Nat := x.significand * Nat.pow 2 x.exponent.toNat

/-- The value as a quotient of natural numbers: the denominator. -/
def den (x : Binary) : Nat := Nat.pow 2 (-x.exponent).toNat

end Binary

/-- The quotient rounded to the nearest natural number, a tie to the even one. -/
def roundDiv (num den : Nat) : Nat :=
  let q := num / den
  match compare (2 * (num % den)) den with
  | .lt => q
  | .gt => q + 1
  | .eq => if q % 2 = 0 then q else q + 1

/-- The exponent of the greatest power of two that is at most the positive quotient. -/
def logDiv (num den : Nat) : Int :=
  let e : Int := (num.log2 : Int) - (den.log2 : Int)
  if den * Nat.pow 2 e.toNat ≤ num * Nat.pow 2 (-e).toNat then e else e - 1

namespace BinaryFormat

/-- The exponent that the last bit of a value near the positive quotient has. -/
def lastBit (f : BinaryFormat) (num den : Nat) : Int :=
  max (logDiv num den - (f.precision : Int) + 1) f.minExp

/-- The value of the format nearest to the quotient, an exact tie going to
the even significand; `none` when that lies beyond every finite value. -/
def round (f : BinaryFormat) (num den : Nat) : Option Binary :=
  if num = 0 then some ⟨0, f.minExp⟩
  else
    let q := f.lastBit num den
    let m := roundDiv (num * Nat.pow 2 (-q).toNat) (den * Nat.pow 2 q.toNat)
    if f.maxExp < q + f.precision
        ∨ (f.maxExp = q + f.precision ∧ Nat.pow 2 f.precision ≤ m) then none
    else some ⟨m, q⟩

/-- The product of two values, rounded once. -/
def mul (f : BinaryFormat) (x y : Binary) : Option Binary :=
  f.round (x.num * y.num) (x.den * y.den)

/-- The quotient of two values, rounded once. -/
def div (f : BinaryFormat) (x y : Binary) : Option Binary :=
  f.round (x.num * y.den) (x.den * y.num)

end BinaryFormat

end ModelExport
