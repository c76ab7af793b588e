import ModelExport.Proofs.Decimal.Rounding

/-!
# The reals that round to a number of 32 bits

`Single.Covers x v` says that `v` lies between the points half way to the
neighbours of the positive finite number `x`; the points themselves count
when the significand is even. `Single.readsBack` decides it, and every
such `v` is rounded to the absolute value of `x` (`ofBinary_round`).
-/

namespace ModelExport

namespace Single

/-! ## Patterns -/

/-- A finite number that is not zero. -/
structure Proper (x : Single) : Prop where
  pos : 0 < x.magnitude
  lt : x.magnitude < 0x7f800000

/-- What the pattern says about the absolute value of a proper number. -/
structure Fields (x : Single) (m : ℕ) (q : ℤ) : Prop where
  toBinary : x.toBinary = ⟨m, q⟩
  pos : 0 < m
  lt : m < 2 ^ 24
  minExp : -149 ≤ q
  maxExp : q ≤ 104
  leading : 2 ^ 23 ≤ m ∨ q = -149
  magnitude : (q + 149).toNat * 2 ^ 23 + m = x.magnitude

theorem Proper.exists_fields {x : Single} (h : x.Proper) : ∃ m q, x.Fields m q := by
  obtain ⟨hpos, hlt⟩ := h
  have hsplit := Nat.div_add_mod x.magnitude 0x800000
  have hmod := Nat.mod_lt x.magnitude (show 0x800000 > 0 by decide)
  by_cases he : x.magnitude / 0x800000 = 0
  · refine ⟨x.magnitude % 0x800000, -149, ?_, by omega, by omega, by omega, by omega, .inr rfl,
      by omega⟩
    simp [Single.toBinary, he]
  · refine ⟨0x800000 + x.magnitude % 0x800000, (x.magnitude / 0x800000 : ℕ) - 150, ?_, by omega,
      by omega, by omega, by omega, .inl (by omega), by omega⟩
    simp [Single.toBinary, he]

theorem toNat_bits (x : Single) :
    x.bits.toNat = (if x.isNegative then 2 ^ 31 else 0) + x.magnitude := by
  have hlt := x.bits.toNat_lt
  have hneg : x.isNegative = true ↔ 2 ^ 31 ≤ x.bits.toNat := by
    rw [isNegative, decide_eq_true_eq, UInt32.le_iff_toNat_le]
    rfl
  rw [magnitude]
  split
  · next h => rw [hneg] at h; omega
  · next h => rw [hneg] at h; omega

theorem xor_sign {n : ℕ} (h : n < 2 ^ 31) : n ^^^ 2 ^ 31 = n + 2 ^ 31 := by
  have hdiv : (n ^^^ 2 ^ 31) / 2 ^ 31 = 1 := by
    rw [Nat.xor_div_two_pow, Nat.div_eq_of_lt h]
    rfl
  have hmod : (n ^^^ 2 ^ 31) % 2 ^ 31 = n := by
    rw [Nat.xor_mod_two_pow, Nat.mod_eq_of_lt h, Nat.mod_self, Nat.xor_zero]
  omega

/-- The sign and the magnitude make the number. -/
theorem ofBinary_magnitude {x : Single} {m : ℕ} {q : ℤ}
    (h : (q + 149).toNat * 0x800000 + m = x.magnitude) :
    ofBinary x.isNegative (some ⟨m, q⟩) = x := by
  have hbits := x.toNat_bits
  have hlt : x.magnitude < 2 ^ 31 := Nat.mod_lt _ (by decide)
  obtain ⟨bits⟩ := x
  simp only [ofBinary, h]
  split
  · next hneg =>
      rw [if_pos hneg] at hbits
      refine congrArg Single.mk (UInt32.toNat_inj.mp ?_)
      rw [UInt32.toNat_xor, UInt32.toNat_ofNat_of_lt' (lt_trans hlt (by decide))]
      simp only at hbits
      rw [hbits, Nat.add_comm]
      exact xor_sign hlt
  · next hneg =>
      rw [if_neg hneg, Nat.zero_add] at hbits
      refine congrArg Single.mk (UInt32.toNat_inj.mp ?_)
      rw [UInt32.toNat_ofNat_of_lt' (lt_trans hlt (by decide))]
      exact hbits.symm

/-! ## Ends -/

/-- The value lies among the reals that round to the number. -/
def Covers (x : Single) (v : ℚ) : Prop :=
  (x.lowerEnd.value < v ∨ x.toBinary.significand % 2 = 0 ∧ v = x.lowerEnd.value)
    ∧ (v < x.upperEnd.value ∨ x.toBinary.significand % 2 = 0 ∧ v = x.upperEnd.value)

theorem readsBack_iff (x : Single) (d : Decimal) : x.readsBack d = true ↔ x.Covers d.value := by
  rw [readsBack, Covers, Bool.and_eq_true]
  refine and_congr ?_ ?_
  · cases h : d.compareBinary x.lowerEnd with
    | lt =>
        have := (d.compareBinary_lt _).mp h
        refine ⟨nofun, ?_⟩
        rintro (h | ⟨-, h⟩) <;> linarith
    | eq =>
        have := (d.compareBinary_eq _).mp h
        rw [decide_eq_true_eq, this]
        simp
    | gt =>
        have := (d.compareBinary_gt _).mp h
        exact ⟨fun _ => .inl this, fun _ => rfl⟩
  · cases h : d.compareBinary x.upperEnd with
    | lt =>
        have := (d.compareBinary_lt _).mp h
        exact ⟨fun _ => .inl this, fun _ => rfl⟩
    | eq =>
        have := (d.compareBinary_eq _).mp h
        rw [decide_eq_true_eq, this]
        simp
    | gt =>
        have := (d.compareBinary_gt _).mp h
        refine ⟨nofun, ?_⟩
        rintro (h | ⟨-, h⟩) <;> linarith

theorem two_zpow_eq (q : ℤ) : (2 : ℚ) ^ q = 2 * 2 ^ (q - 1) := by
  rw [@two_zpow_add (q - 1) q 1 (by omega), pow_one]

theorem two_zpow_sub_one (q : ℤ) : (2 : ℚ) ^ (q - 1) = 2 * 2 ^ (q - 2) := by
  rw [@two_zpow_add (q - 2) (q - 1) 1 (by omega), pow_one]

section ends

variable {x : Single} {m : ℕ} {q : ℤ}

theorem value_toBinary (h : x.Fields m q) : x.toBinary.value = 2 * m * 2 ^ (q - 1) := by
  rw [h.toBinary, Binary.value, two_zpow_eq]
  ring

theorem upperEnd_value (h : x.Fields m q) : x.upperEnd.value = (2 * m + 1) * 2 ^ (q - 1) := by
  rw [upperEnd, h.toBinary, Binary.value, two_zpow_sub_one]
  push_cast
  ring

/-- Away from the powers of two both ends are equally far. -/
theorem lowerEnd_value (h : x.Fields m q) (hregular : m = 2 ^ 23 → q = -149) :
    x.lowerEnd.value = (2 * m - 1) * 2 ^ (q - 1) := by
  have hpos := h.pos
  have hcond : ¬ (m = 0x800000 ∧ -149 < q) := fun hc => by
    have := hregular hc.1
    omega
  rw [lowerEnd, h.toBinary]
  simp only [if_neg hcond]
  rw [Binary.value, two_zpow_sub_one]
  push_cast [show 2 ≤ 4 * m by omega]
  ring

/-- Just above a power of two the lower end is half as far. -/
theorem lowerEnd_value_of_power (h : x.Fields (2 ^ 23) q) (hq : -149 < q) :
    x.lowerEnd.value = (2 ^ 25 - 1) * 2 ^ (q - 2) := by
  have hcond : 2 ^ 23 = 0x800000 ∧ -149 < q := ⟨rfl, hq⟩
  rw [lowerEnd, h.toBinary]
  simp only [if_pos hcond]
  rw [Binary.value]
  norm_num

theorem le_lowerEnd (h : x.Fields m q) : (2 * m - 1 : ℚ) * 2 ^ (q - 1) ≤ x.lowerEnd.value := by
  by_cases hpower : m = 2 ^ 23 ∧ -149 < q
  · obtain ⟨rfl, hq⟩ := hpower
    rw [lowerEnd_value_of_power h hq, two_zpow_sub_one, ← mul_assoc]
    gcongr
    norm_num
  · have hmin := h.minExp
    exact (lowerEnd_value h fun hm => by omega).ge

/-! ## Rounding -/

theorem le_of_covers {v : ℚ} (h : x.Covers v) : x.lowerEnd.value ≤ v ∧ v ≤ x.upperEnd.value := by
  obtain ⟨hlow, hhigh⟩ := h
  constructor
  · rcases hlow with hlow | ⟨-, hlow⟩
    · exact hlow.le
    · exact hlow.ge
  · rcases hhigh with hhigh | ⟨-, hhigh⟩
    · exact hhigh.le
    · exact hhigh.le

theorem lt_of_covers {v : ℚ} (h : x.Covers v) (hodd : x.toBinary.significand % 2 = 1) :
    x.lowerEnd.value < v ∧ v < x.upperEnd.value :=
  ⟨h.1.resolve_right fun hc => by omega, h.2.resolve_right fun hc => by omega⟩

theorem upperEnd_lt (h : x.Fields m q) : x.upperEnd.value < 2 ^ (q + 24) := by
  have hm : (m : ℚ) + 1 ≤ 2 ^ 24 := mod_cast h.lt
  calc x.upperEnd.value = (2 * m + 1) * 2 ^ (q - 1) := upperEnd_value h
    _ < 2 ^ 25 * 2 ^ (q - 1) := by
        gcongr
        linarith
    _ = 2 ^ (q + 24) := (two_zpow_add 25 (by omega)).symm

/-- Only just above a power of two does the number cover values with a finer last bit. -/
theorem of_covers_of_lt (h : x.Fields m q) {v : ℚ} (hcovers : x.Covers v) (hlt : v < 2 ^ (q + 23))
    (hq : -149 < q) : m = 2 ^ 23 := by
  by_contra hne
  have hm : (2 ^ 23 + 1 : ℚ) ≤ m := by
    have hleading := h.leading
    exact_mod_cast (by omega : 2 ^ 23 + 1 ≤ m)
  refine absurd hlt (not_lt.mpr ?_)
  calc (2 : ℚ) ^ (q + 23) = 2 ^ 24 * 2 ^ (q - 1) := two_zpow_add 24 (by omega)
    _ ≤ (2 * m - 1) * 2 ^ (q - 1) := by
        gcongr
        linarith
    _ ≤ x.lowerEnd.value := le_lowerEnd h
    _ ≤ v := (le_of_covers hcovers).1

/-- What lies among the reals that round to the number is rounded to it. -/
theorem ofBinary_round (h : x.Fields m q) {num den : ℕ} (hden : 0 < den)
    (hcovers : x.Covers (num / den)) :
    ofBinary x.isNegative (BinaryFormat.single.round num den) = x := by
  obtain ⟨hlow, hhigh⟩ := le_of_covers hcovers
  have hmin := h.minExp
  have hmax := h.maxExp
  have hlt := h.lt
  by_cases hbits : (2 : ℚ) ^ (q + 23) ≤ num / den ∨ q = -149
  · have hround : BinaryFormat.single.round num den = some ⟨m, q⟩ := by
      refine BinaryFormat.round_of_near hden hmin ?_ (hhigh.trans_lt (upperEnd_lt h)) h.pos
        ((le_lowerEnd h).trans hlow) (upperEnd_value h ▸ hhigh) (fun hodd => ?_) ?_
      · rwa [show q + (BinaryFormat.single.precision : ℤ) - 1 = q + 23 by
          simp only [BinaryFormat.single]; omega]
      · obtain ⟨hgt, hless⟩ := lt_of_covers hcovers (by rw [h.toBinary]; exact hodd)
        exact ⟨(le_lowerEnd h).trans_lt hgt, upperEnd_value h ▸ hless⟩
      · simp only [BinaryFormat.single]
        omega
    rw [hround]
    exact ofBinary_magnitude h.magnitude
  · -- below a power of two the last bit weighs half as much
    obtain ⟨hbelow, hq⟩ := not_or.mp hbits
    rw [not_le] at hbelow
    obtain rfl := of_covers_of_lt h hcovers hbelow (by omega)
    rw [lowerEnd_value_of_power h (by omega)] at hlow
    have hfewer : (2 : ℚ) ^ (q - 1 + (24 : ℕ) - 1) = 2 ^ 24 * 2 ^ (q - 2) :=
      two_zpow_add 24 (by omega)
    have hmore : (2 : ℚ) ^ (q - 1 + (24 : ℕ)) = 2 ^ 25 * 2 ^ (q - 2) := two_zpow_add 25 (by omega)
    have hsame : (2 : ℚ) ^ (q + 23) = 2 ^ 25 * 2 ^ (q - 2) := two_zpow_add 25 (by omega)
    have hpow : (0 : ℚ) < 2 ^ (q - 2) := by positivity
    have hround : BinaryFormat.single.round num den = some ⟨2 ^ 24, q - 1⟩ := by
      apply BinaryFormat.round_of_near hden
      · simp only [BinaryFormat.single]
        omega
      · refine .inl (hfewer.trans_le ?_)
        linarith
      · exact hbelow.trans_eq (hsame.trans hmore.symm)
      · decide
      · rw [show q - 1 - 1 = q - 2 by ring]
        push_cast
        linarith
      · rw [show q - 1 - 1 = q - 2 by ring]
        push_cast
        linarith
      · exact fun hodd => absurd hodd (by decide)
      · simp only [BinaryFormat.single]
        omega
    rw [hround]
    apply ofBinary_magnitude
    have hstep : (q + 149).toNat = (q - 1 + 149).toNat + 1 := by omega
    rw [← h.magnitude, hstep]
    ring

end ends

end Single

end ModelExport
