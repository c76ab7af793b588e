import Mathlib.Algebra.Group.Nat.Defs
import ModelExport.Wire.Binary

/-!
# Reading back bytes

`Reads read bytes a` says that a reader takes exactly these bytes off the
front, whatever follows, and gives `a`. The relation composes as readers
do (`Reads.bind`), so that the law of each primitive part - numbers of
varying length, texts, flags, patterns of four bytes - is stated once and
for every continuation.
-/

namespace ModelExport

namespace ByteReader

variable {α β : Type}

/-- The reader takes exactly these bytes off the front and gives the value. -/
def Reads (read : ByteReader α) (bytes : List UInt8) (a : α) : Prop :=
  ∀ after, read (bytes ++ after) = .ok (a, after)

theorem reads_pure (a : α) : Reads (pure a) [] a := fun _ => rfl

theorem Reads.bind {read : ByteReader α} {next : α → ByteReader β} {first second : List UInt8}
    {a : α} {b : β} (h : Reads read first a) (hnext : Reads (next a) second b) :
    Reads (read >>= next) (first ++ second) b := by
  intro after
  have hfirst := h (second ++ after)
  rw [← List.append_assoc] at hfirst
  show (read (first ++ second ++ after) >>= fun s => next s.1 s.2) = _
  rw [hfirst]
  exact hnext after

theorem Reads.map {read : ByteReader α} {bytes : List UInt8} {a : α} (h : Reads read bytes a)
    (f : α → β) : Reads (f <$> read) bytes (f a) := by
  intro after
  show (read (bytes ++ after) >>= fun s => pure (f s.1, s.2)) = _
  rw [h after]
  rfl

/-- The last reader of a sequence takes no bytes. -/
theorem Reads.last {read : ByteReader α} {next : α → ByteReader β} {bytes : List UInt8}
    {a : α} {b : β} (h : Reads read bytes a) (hnext : Reads (next a) [] b) :
    Reads (read >>= next) bytes b := by
  rw [← List.append_nil bytes]
  exact h.bind hnext

theorem reads_byte (b : UInt8) : Reads byte [b] b := fun _ => rfl

theorem reads_take (bytes : List UInt8) : Reads (take bytes.length) bytes bytes := by
  intro after
  rw [take, if_pos (by simp)]
  simp

end ByteReader

open ByteReader (Reads)

/-! ## Numbers -/

namespace Varint

theorem groups_ne_nil (bound n : Nat) : groups bound n ≠ [] := by
  cases bound with
  | zero => simp [groups]
  | succ bound =>
      rw [groups]
      split <;> simp

theorem encode_ne_nil (n : Nat) : encode n ≠ [] := groups_ne_nil 9 n

theorem toNat_ofNat {n : Nat} (h : n < 256) : (UInt8.ofNat n).toNat = n :=
  UInt8.toNat_ofNat_of_lt' h

/-- The last group holds at most `top`, every other one seven bits. -/
theorem reads_groups {top : Nat} (htop : top < 128) {bound n : Nat}
    (h : n < (top + 1) * 128 ^ bound) : Reads (readGroups top bound) (groups bound n) n := by
  induction bound generalizing n with
  | zero =>
      have hn : n ≤ top := by omega
      have hbyte : (UInt8.ofNat n).toNat = n := toNat_ofNat (by omega)
      refine (ByteReader.reads_byte _).last ?_
      rw [hbyte, if_pos hn]
      exact ByteReader.reads_pure n
  | succ bound ih =>
      rw [groups, readGroups]
      split
      · next hn =>
          have hbyte : (UInt8.ofNat n).toNat = n := toNat_ofNat (by omega)
          refine (ByteReader.reads_byte _).last ?_
          rw [hbyte, if_pos hn]
          exact ByteReader.reads_pure n
      · next hn =>
          have hbyte : (UInt8.ofNat (n % 128 + 128)).toNat = n % 128 + 128 := toNat_ofNat (by omega)
          have hrest : n / 128 < (top + 1) * 128 ^ bound := by
            rw [Nat.pow_succ, ← Nat.mul_assoc] at h
            omega
          have hvalue : n = n % 128 + 128 - 128 + 128 * (n / 128) := by omega
          refine (ByteReader.reads_byte _).bind ?_
          rw [hbyte, if_neg (by omega)]
          refine (ih hrest).last ?_
          rw [← hvalue]
          exact ByteReader.reads_pure n

theorem reads_encode {n : Nat} (h : n < UInt64.size) : Reads read64 (encode n) n :=
  reads_groups (by decide) (by omega)

/-- The number of a case has one byte. -/
theorem reads_encode_small {n : Nat} (h : n < 128) : Reads read32 (encode n) n := by
  have hbytes : encode n = groups 4 n := by
    rw [encode, groups, if_pos h, groups, if_pos h]
  rw [hbytes]
  exact reads_groups (by decide) (by omega)

end Varint

/-! ## Signed numbers -/

theorem zigzag_lt (n : Int64) : zigzag n < UInt64.size := by
  have hlow := n.le_toInt
  have hhigh := n.toInt_lt
  rw [zigzag, UInt64.size]
  split <;> omega

theorem ofZigzag_zigzag (n : Int64) : ofZigzag (zigzag n) = n := by
  have hlow := n.le_toInt
  have hhigh := n.toInt_lt
  unfold zigzag
  by_cases hn : n < 0
  · have hneg : n.toInt < 0 := Int64.lt_iff_toInt_lt.mp hn
    rw [if_pos hn, ofZigzag, if_neg (by omega),
      show -(((-2 * n.toInt - 1).toNat / 2 : Nat) : Int) - 1 = n.toInt by omega, Int64.ofInt_toInt]
  · have hpos : 0 ≤ n.toInt := by
      have := mt Int64.lt_iff_toInt_lt.mpr hn
      simpa using this
    rw [if_neg hn, ofZigzag, if_pos (by omega),
      show (2 * n.toInt).toNat / 2 = n.toInt.toNat by omega, ← Int64.ofInt_eq_ofNat,
      Int.toNat_of_nonneg hpos, Int64.ofInt_toInt]

/-! ## Texts and patterns -/

theorem ofUtf8?_utf8 (s : String) : ofUtf8? (utf8 s) = some s := by
  rw [ofUtf8?, utf8, String.fromUTF8?]
  exact dif_pos s.isValidUTF8

namespace Single

theorem length_toBytes (x : Single) : x.toBytes.length = 4 := rfl

theorem ofBytes_toBytes (x : Single) : ofBytes x.toBytes = x := by
  have hlt := x.bits.toNat_lt
  simp only [ofBytes, toBytes, List.foldr_cons, List.foldr_nil, UInt8.toNat_ofNat']
  rw [show x.bits.toNat % 2 ^ 8 + 256 * (x.bits.toNat / 0x100 % 2 ^ 8
      + 256 * (x.bits.toNat / 0x10000 % 2 ^ 8 + 256 * (x.bits.toNat / 0x1000000 % 2 ^ 8 + 256 * 0)))
        = x.bits.toNat by omega, UInt32.ofNat_toNat]

end Single

end ModelExport
