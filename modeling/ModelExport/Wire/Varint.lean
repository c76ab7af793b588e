/-!
# Numbers of varying length

A number is written in groups of seven bits, the least significant group
first; a byte from 128 on says that another group follows. A reader
accepts more groups than are needed, up to a limit that the width of the
number sets.
-/

namespace ModelExport

/-- Why stored bytes cannot be read. -/
inductive WireError where
  | endOfInput
  | endlessNumber
  | badFlag
  | badOption
  | badText
  /-- There is no case of the number. -/
  | unknownCase
  deriving DecidableEq

namespace WireError

def message : WireError → String
  | .endOfInput => "Hit the end of buffer, expected more data"
  | .endlessNumber =>
      "Found a varint that didn't terminate. Is the usize too big for this platform?"
  | .badFlag => "Found a bool that wasn't 0 or 1"
  | .badOption => "Found an Option discriminant that wasn't 0 or 1"
  | .badText => "Tried to parse invalid utf-8"
  | .unknownCase => "Serde Deserialization Error"

end WireError

/-- Reads from the front of a list of bytes; what is left goes to the next reader. -/
abbrev ByteReader := StateT (List UInt8) (Except WireError)

namespace ByteReader

/-- The next byte. -/
def byte : ByteReader UInt8 := fun bytes =>
  match bytes with
  | [] => .error .endOfInput
  | b :: rest => .ok (b, rest)

/-- The next bytes, as many as asked for. -/
def take (count : Nat) : ByteReader (List UInt8) := fun bytes =>
  if count ≤ bytes.length then .ok (bytes.splitAt count) else .error .endOfInput

end ByteReader

namespace Varint

/-- The groups of a number; the first argument bounds how many follow the first. -/
def groups : Nat → Nat → List UInt8
  | 0, n => [UInt8.ofNat n]
  | bound + 1, n =>
      if n < 128 then [UInt8.ofNat n]
      else UInt8.ofNat (n % 128 + 128) :: groups bound (n / 128)

/-- A number below `2 ^ 64`. -/
def encode (n : Nat) : List UInt8 := groups 9 n

/-- Reads at most `bound + 1` groups, the last of them at most `top`. -/
def readGroups (top : Nat) : Nat → ByteReader Nat
  | 0 => do
      let b ← ByteReader.byte
      if b.toNat ≤ top then return b.toNat else throw .endlessNumber
  | bound + 1 => do
      let b ← ByteReader.byte
      if b.toNat < 128 then return b.toNat
      else
        let n ← readGroups top bound
        return b.toNat - 128 + 128 * n

/-- A number of 64 bits. -/
def read64 : ByteReader Nat := readGroups 1 9

/-- A number of 32 bits. -/
def read32 : ByteReader Nat := readGroups 15 4

end Varint

/-- Signed numbers in the order 0, -1, 1, -2, 2 and so on, so that small ones stay small. -/
def zigzag (n : Int64) : Nat :=
  if n < 0 then (-2 * n.toInt - 1).toNat else (2 * n.toInt).toNat

/-- The signed number at a place of that order. -/
def ofZigzag (n : Nat) : Int64 :=
  if n % 2 = 0 then Int64.ofNat (n / 2) else Int64.ofInt (-((n / 2 : Nat) : Int) - 1)

end ModelExport
