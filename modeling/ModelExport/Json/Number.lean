import ModelExport.Decimal.Shortest
import ModelExport.Json.Basic

/-!
# Numbers in JSON

What a written number stands for, and how a 32-bit number is written.

A number without fraction and exponent is an integer; minus zero is none.
An integer of 64 bits becomes a 32-bit number in one rounding. Any other
number is first read as a 64-bit one: the leading digits that fit 64 bits
make the significand, which is rounded and then scaled by one rounded
power of ten. A result beyond the finite numbers of 64 bits is refused,
one beyond those of 32 bits becomes infinite.

A finite 32-bit number is written with its shortest digits, positionally
from a millionth up to thirteen digits in front of the point and with an
exponent outside that range. Values that are not finite have no numeral
and are written as words.
-/

namespace ModelExport

namespace Numeral

/-! ## Integers -/

/-- The integer, if the number is written as one. -/
def int? (n : Numeral) : Option Int :=
  if n.fraction = [] ∧ n.exponent = none then
    if n.negative then (if n.whole = 0 then none else some (-(n.whole : Int)))
    else some n.whole
  else none

def uint64? (n : Numeral) : Option UInt64 :=
  match n.int? with
  | some i => if 0 ≤ i ∧ i < UInt64.size then some (UInt64.ofNat i.toNat) else none
  | none => none

def int64? (n : Numeral) : Option Int64 :=
  match n.int? with
  | some i => if -0x8000000000000000 ≤ i ∧ i < 0x8000000000000000 then some (Int64.ofInt i) else none
  | none => none

/-! ## Numbers of 64 bits -/

/-- The digits that fit 64 bits and the weight of the last of them. -/
structure Significand where
  value : Nat
  exponent : Int

namespace Significand

/-- Takes a digit in unless the value would leave 64 bits. -/
def push? (s : Nat) (d : Digit) : Option Nat :=
  if 10 * s + d.val < UInt64.size then some (10 * s + d.val) else none

/-- Takes in digits in front of the point; those that no longer fit only raise the weight. -/
def pushWhole (value : Nat) : List Digit → Significand
  | [] => ⟨value, 0⟩
  | d :: rest =>
      match push? value d with
      | some value => pushWhole value rest
      | none => ⟨value, (rest.length : Int) + 1⟩

/-- Takes in digits behind the point; those from the first that no longer fits on are dropped. -/
def pushFraction (s : Significand) : List Digit → Significand
  | [] => s
  | d :: rest =>
      match push? s.value d with
      | some value => pushFraction ⟨value, s.exponent - 1⟩ rest
      | none => s

end Significand

def significand (n : Numeral) : Significand :=
  let s := (Significand.pushWhole 0 (digits n.whole)).pushFraction n.fraction
  ⟨s.value, s.exponent + n.exponent.getD 0⟩

/-- A power of ten among the numbers of 64 bits. -/
def powerOfTen (e : Nat) : Option Binary := BinaryFormat.double.round (Nat.pow 10 e) 1

/-- The absolute value as a number of 64 bits; `none` when it is beyond the finite ones. -/
def double? (n : Numeral) : Option Binary := do
  let s := n.significand
  let x ← BinaryFormat.double.round s.value 1
  if s.value = 0 then return x
  else if 308 < s.exponent then none
  else if 0 ≤ s.exponent then
    BinaryFormat.double.mul x (← powerOfTen s.exponent.toNat)
  else if -308 ≤ s.exponent then
    BinaryFormat.double.div x (← powerOfTen (-s.exponent).toNat)
  else if -616 ≤ s.exponent then
    let y ← BinaryFormat.double.div x (← powerOfTen 308)
    BinaryFormat.double.div y (← powerOfTen (-s.exponent - 308).toNat)
  else return ⟨0, 0⟩

/-! ## Numbers of 32 bits -/

/-- Whether the number is an integer of 64 bits, signed or not. -/
def fitsInteger (n : Numeral) : Bool := n.uint64?.isSome || n.int64?.isSome

/-- The number of 32 bits, unless it is beyond those of 64 bits. -/
def single? (n : Numeral) : Option Single :=
  if n.fitsInteger then
    some (Single.ofBinary n.negative (BinaryFormat.single.round n.whole 1))
  else
    n.double?.map fun x => Single.ofBinary n.negative (BinaryFormat.single.round x.num x.den)

/-- The last digits of the number, so many of them. -/
def lastDigits : Nat → Nat → List Digit
  | 0, _ => []
  | count + 1, n => lastDigits count (n / 10) ++ [⟨n % 10, Nat.mod_lt _ (by decide)⟩]

/-- A decimal in the style of 32-bit numbers. -/
def ofDecimal (negative : Bool) (d : Decimal) : Numeral :=
  let count := (digits d.digits).length
  let leading : Int := d.exponent + count - 1
  if -6 ≤ leading ∧ leading ≤ 12 then
    if 0 ≤ d.exponent then
      { negative, whole := d.digits * Nat.pow 10 d.exponent.toNat, fraction := [0] }
    else
      let places := (-d.exponent).toNat
      { negative, whole := d.digits / Nat.pow 10 places, fraction := lastDigits places d.digits }
  else
    { negative
      whole := d.digits / Nat.pow 10 (count - 1)
      fraction := lastDigits (count - 1) d.digits
      exponent := some leading }

end Numeral

namespace Single

/-- The number as it is written. -/
def toJson (x : Single) : Json :=
  if x.isNaN then .ofString "NaN"
  else if !x.isFinite then .ofString (if x.isNegative then "-Infinity" else "Infinity")
  else if x.magnitude = 0 then .num { negative := x.isNegative, whole := 0, fraction := [0] }
  else .num (.ofDecimal x.isNegative x.shortest)

def ofJson? : Json → Option Single
  | .num n => n.single?
  | .str (some s) =>
      if s = "NaN" then some .nan
      else if s = "Infinity" then some .infinity
      else if s = "-Infinity" then some (.negate .infinity)
      else none
  | _ => none

end Single

end ModelExport
