import ModelExport.Decimal.Binary

/-!
# Numbers of 32 bits

A `Single` is the bit pattern of a 32-bit floating-point number: a sign,
eight bits of exponent, 23 bits of fraction. Two of them are equal when
their patterns are, so zeros of both signs differ and a not-a-number
equals itself.
-/

namespace ModelExport

/-- The bit pattern of a 32-bit floating-point number. -/
structure Single where
  bits : UInt32
  deriving DecidableEq

namespace Single

def zero : Single := ⟨0⟩

def infinity : Single := ⟨0x7f800000⟩

/-- The pattern that is written for a value that is no number. -/
def nan : Single := ⟨0x7fc00000⟩

def isNegative (x : Single) : Bool := 0x80000000 ≤ x.bits

def negate (x : Single) : Single := ⟨x.bits ^^^ 0x80000000⟩

/-- The pattern without its sign bit. -/
def magnitude (x : Single) : Nat := x.bits.toNat % 0x80000000

def isFinite (x : Single) : Bool := x.magnitude < 0x7f800000

def isNaN (x : Single) : Bool := 0x7f800000 < x.magnitude

/-- The absolute value of a finite number. -/
def toBinary (x : Single) : Binary :=
  let e : Nat := x.magnitude / 0x800000
  let f : Nat := x.magnitude % 0x800000
  if e = 0 then ⟨f, -149⟩ else ⟨0x800000 + f, (e : Int) - 150⟩

/-- The number with the sign and a magnitude that the format holds;
`none` stands for a magnitude beyond the finite ones. -/
def ofBinary (negative : Bool) (x : Option Binary) : Single :=
  let x :=
    match x with
    | none => infinity
    | some x => ⟨UInt32.ofNat ((x.exponent + 149).toNat * 0x800000 + x.significand)⟩
  if negative then x.negate else x

end Single

end ModelExport
