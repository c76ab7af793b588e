import ModelExport.Decimal.Digits
import ModelExport.Value.Single

/-!
# Shortest decimals

The decimal text of a 32-bit number needs just enough digits to tell the
number from its neighbours. `Single.shortest` tries one digit, two digits
and so on: at each length the two decimals that enclose the value are the
only candidates, the first length at which one of them reads back wins,
of two the nearer is taken, and an exact tie goes to the even digits.

"Reads back" is decided by exact comparison with the two points half way
to the neighbouring numbers; the points themselves count when the
significand is even, as a reader that rounds a tie to even demands.
-/

namespace ModelExport

/-- The value `digits * 10 ^ exponent`. -/
structure Decimal where
  digits : Nat
  exponent : Int
  deriving DecidableEq

namespace Decimal

def num (d : Decimal) : Nat := d.digits * Nat.pow 10 d.exponent.toNat

def den (d : Decimal) : Nat := Nat.pow 10 (-d.exponent).toNat

/-- Compares a decimal with a binary value, exactly. -/
def compareBinary (d : Decimal) (x : Binary) : Ordering :=
  compare (d.num * x.den) (x.num * d.den)

/-- Drops zeros at the end of the digits, at most as many as the bound says. -/
def strip : Nat → Decimal → Decimal
  | 0, d => d
  | bound + 1, d =>
      if d.digits ≠ 0 ∧ d.digits % 10 = 0 then strip bound ⟨d.digits / 10, d.exponent + 1⟩ else d

end Decimal

namespace Single

/-- The point half way to the number below, at a quarter of the last bit's
weight. Just above a power of two the number below is half as far. -/
def lowerEnd (x : Single) : Binary :=
  let b := x.toBinary
  if b.significand = 0x800000 ∧ -149 < b.exponent then ⟨4 * b.significand - 1, b.exponent - 2⟩
  else ⟨4 * b.significand - 2, b.exponent - 2⟩

/-- The point half way to the number above. -/
def upperEnd (x : Single) : Binary :=
  ⟨4 * x.toBinary.significand + 2, x.toBinary.exponent - 2⟩

/-- Whether the decimal lies among the reals that round to the positive finite number. -/
def readsBack (x : Single) (d : Decimal) : Bool :=
  let closed := x.toBinary.significand % 2 = 0
  (match d.compareBinary x.lowerEnd with
    | .gt => true
    | .eq => closed
    | .lt => false) &&
  (match d.compareBinary x.upperEnd with
    | .lt => true
    | .eq => closed
    | .gt => false)

/-- The least `k` with `x < 10 ^ k`, looked for from the given one upwards. -/
def scaleFrom (x : Binary) : Nat → Int → Int
  | 0, k => k
  | bound + 1, k =>
      match (Decimal.mk 1 k).compareBinary x with
      | .gt => k
      | _ => scaleFrom x bound (k + 1)

/-- The least `k` with `x < 10 ^ k`; no 32-bit number lies outside `10 ^ -46` and `10 ^ 40`. -/
def scale (x : Binary) : Int := scaleFrom x 86 (-46)

/-- The best decimal whose last digit has the weight `10 ^ exponent`, if one reads back. -/
def candidate? (x : Single) (exponent : Int) : Option Decimal :=
  let b := x.toBinary
  let below : Decimal :=
    ⟨b.num * Nat.pow 10 (-exponent).toNat / (b.den * Nat.pow 10 exponent.toNat), exponent⟩
  let above : Decimal := ⟨below.digits + 1, exponent⟩
  match x.readsBack below, x.readsBack above with
  | false, false => none
  | true, false => some below
  | false, true => some above
  | true, true =>
      -- twice the value lies on the side of the farther candidate
      match (Decimal.mk (2 * below.digits + 1) exponent).compareBinary
          ⟨b.significand, b.exponent + 1⟩ with
      | .gt => some below
      | .lt => some above
      | .eq => some (if below.digits % 2 = 0 then below else above)

/-- The shortest decimal that reads back as the positive finite number. Nine digits always do. -/
def shortest (x : Single) : Decimal :=
  let k := scale x.toBinary
  match (List.range 9).findSome? (fun n : Nat => x.candidate? (k - (n + 1))) with
  | some d => d.strip 9
  | none => ⟨x.toBinary.num * Nat.pow 10 (-x.toBinary.exponent).toNat / x.toBinary.den,
      min x.toBinary.exponent 0⟩

end Single

end ModelExport
