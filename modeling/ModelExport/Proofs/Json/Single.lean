import ModelExport.Proofs.Decimal.Midpoint
import ModelExport.Proofs.Json.Number
import ModelExport.Proofs.Json.Tree

/-!
# Numbers come back from their text

A number of 32 bits is written with its shortest decimal. The reader makes
a number of 64 bits of it before it narrows the result. The first rounding
does not leave the reals that round to the number (`Covers.of_near`), as
the decimal is not near their ends unless it is one, and then it is not
rounded at all. Two numbers have a midpoint that is too near; for them the
reader is run.
-/

namespace ModelExport

namespace Single

variable {x : Single} {m : ℕ} {q : ℤ}

/-! ## The ends of the interval -/

theorem five_pow_le {a b k l n : ℕ} (ha : 0 < a) (h : a * 2 ^ k = b * 5 ^ n * 2 ^ l) :
    5 ^ n ≤ a := by
  have hcoprime : Nat.Coprime (5 ^ n) (2 ^ k) := Nat.Coprime.pow _ _ (by decide)
  exact Nat.le_of_dvd ha (hcoprime.dvd_of_dvd_mul_right ⟨b * 2 ^ l, by rw [h]; ring⟩)

/-- A decimal of few digits that is a binary number of few bits has a small exponent. -/
theorem exponent_bounds {m j : ℕ} {e t : ℤ} (hm : 0 < m) (hm' : m < 10 ^ 14) (hj : 0 < j)
    (hj' : j < 2 ^ 26) (h : (m * 10 ^ e : ℚ) = j * 2 ^ t) : -22 ≤ e ∧ e ≤ 22 := by
  have hnat : m * 5 ^ e.toNat * 2 ^ (e - t).toNat
      = j * 5 ^ (-e).toNat * 2 ^ (-(e - t)).toNat := by
    have hfive := zpow_toNat (by norm_num : (5 : ℚ) ≠ 0) e
    have htwo := zpow_toNat (two_ne_zero : (2 : ℚ) ≠ 0) (e - t)
    have hsplit : (10 : ℚ) ^ e = 5 ^ e * 2 ^ e := by
      rw [← mul_zpow]
      norm_num
    have hpow : (2 : ℚ) ^ e = 2 ^ (e - t) * 2 ^ t := by
      rw [← zpow_add₀ two_ne_zero, sub_add_cancel]
    have hj : (m * (5 ^ e * 2 ^ (e - t)) : ℚ) = j := by
      refine mul_right_cancel₀ (zpow_ne_zero t two_ne_zero) ?_
      rw [← h, hsplit, hpow]
      ring
    rw [← hfive, ← htwo] at hj
    field_simp at hj
    have : (m * 5 ^ e.toNat * 2 ^ (e - t).toNat : ℚ)
        = j * 5 ^ (-e).toNat * 2 ^ (-(e - t)).toNat := by linarith
    exact_mod_cast this
  constructor
  · by_contra hlow
    rw [show e.toNat = 0 by omega, show (-e).toNat = (-e).toNat - 23 + 23 by omega, pow_zero,
      mul_one, pow_add, ← mul_assoc] at hnat
    have := five_pow_le hm hnat
    omega
  · by_contra hhigh
    rw [show (-e).toNat = 0 by omega, show e.toNat = e.toNat - 23 + 23 by omega, pow_zero,
      mul_one, pow_add, ← mul_assoc] at hnat
    have := five_pow_le hj hnat.symm
    omega

theorem exists_lowerEnd (h : x.Fields m q) :
    ∃ j : ℕ, ∃ t : ℤ, 0 < j ∧ j < 2 ^ 26 ∧ -1074 ≤ t ∧ x.lowerEnd.value = j * 2 ^ t := by
  have hpos := h.pos
  have hlt := h.lt
  have hmin := h.minExp
  rw [lowerEnd, h.toBinary]
  split
  · exact ⟨_, _, by simp only; omega, by simp only; omega, by simp only; omega, rfl⟩
  · exact ⟨_, _, by simp only; omega, by simp only; omega, by simp only; omega, rfl⟩

theorem exists_upperEnd (h : x.Fields m q) :
    ∃ j : ℕ, ∃ t : ℤ, 0 < j ∧ j < 2 ^ 26 ∧ -1074 ≤ t ∧ x.upperEnd.value = j * 2 ^ t := by
  have hlt := h.lt
  have hmin := h.minExp
  rw [upperEnd, h.toBinary]
  exact ⟨_, _, by simp only; omega, by simp only; omega, by simp only; omega, rfl⟩

/-- A point near one of the interval lies in it too, if the ends are out of
its reach or the point has not moved from one of them. -/
theorem Covers.of_near (h : x.Fields m q) {d y : ℚ} (hd : x.Covers d)
    (hlower : Apart d x.lowerEnd.value) (hupper : Apart d x.upperEnd.value)
    (hnear : |y - d| ≤ 9 / 2 ^ 55 * d)
    (hend : d = x.lowerEnd.value ∨ d = x.upperEnd.value → y = d) : x.Covers y := by
  by_cases hsame : d = x.lowerEnd.value ∨ d = x.upperEnd.value
  · rwa [hend hsame]
  · obtain ⟨hne, hne'⟩ := not_or.mp hsame
    obtain ⟨hle, hge⟩ := le_of_covers hd
    have hpos := lowerEnd_pos h
    have hfar := hlower.resolve_left hne
    have hfar' := hupper.resolve_left hne'
    rw [abs_of_nonneg (by linarith)] at hfar
    rw [abs_of_nonpos (by linarith)] at hfar'
    rw [abs_le] at hnear
    exact ⟨.inl (by linarith), .inl (by linarith)⟩

/-! ## Reading what was written -/

theorem negative_ofDecimal (negative : Bool) (d : Decimal) :
    (Numeral.ofDecimal negative d).negative = negative := by
  simp only [Numeral.ofDecimal]
  split
  · split <;> rfl
  · rfl

theorem single?_ofDecimal (h : x.Fields m q) (hexception : q = -107 → m ≠ 11420669 ∧ m ≠ 11420670) :
    (Numeral.ofDecimal x.isNegative x.shortest).single? = some x := by
  obtain ⟨n, e, hp⟩ := exists_printed h
  obtain ⟨hlower, hupper⟩ := apart_of_printed h hp hexception
  obtain ⟨hint, k, t, hsig, hk, hk', hvalue, ht⟩ :=
    Numeral.exists_significand x.isNegative hp.pos hp.lt
  have hlow := hp.minExp
  have hhigh := hp.maxExp
  obtain ⟨y, hy, hread⟩ := Numeral.exists_double hsig hk hk' (by omega)
  rw [hvalue, hp.value] at hread
  have hend : ∀ v : ℚ, (∃ j : ℕ, ∃ s : ℤ, 0 < j ∧ j < 2 ^ 26 ∧ -1074 ≤ s ∧ v = j * 2 ^ s) →
      n * 10 ^ e = v → y.value = n * 10 ^ e := by
    rintro v ⟨j, s, hj, hj', hs, rfl⟩ hv
    obtain ⟨hmin, hmax⟩ := exponent_bounds hk hk' hj hj' ((hvalue.trans hp.value).trans hv)
    exact hread.exact (by omega) j s (by omega) hs hv
  have hcovers : x.Covers y.value := hp.covers.of_near h hlower hupper hread.near fun hor =>
    hor.elim (hend _ (exists_lowerEnd h)) (hend _ (exists_upperEnd h))
  rw [← y.num_div_den] at hcovers
  rw [Numeral.single?, hint, if_neg Bool.false_ne_true, hy, Option.map_some, negative_ofDecimal,
    ofBinary_round h y.den_pos hcovers]

theorem eq_of_magnitude {n : ℕ} (hn : x.magnitude = n) :
    x = ⟨UInt32.ofNat n⟩ ∨ x = ⟨UInt32.ofNat (2 ^ 31 + n)⟩ := by
  have hbits := x.toNat_bits
  have hlt := x.bits.toNat_lt
  obtain ⟨bits⟩ := x
  rw [hn] at hbits
  split at hbits
  · right
    rw [← hbits, UInt32.ofNat_toNat]
  · left
    rw [← Nat.zero_add n, ← hbits, UInt32.ofNat_toNat]

/-- The two numbers at the midpoint that is near its decimal. -/
theorem ofJson?_toJson_of_exception (hx : x.magnitude = 0x15ae43fd ∨ x.magnitude = 0x15ae43fe) :
    ofJson? x.toJson = some x := by
  rcases hx with hx | hx <;> rcases eq_of_magnitude hx with rfl | rfl <;> decide +kernel

/-- The number; of the values that are none, the one that a text can name. -/
def named (x : Single) : Single := if x.isNaN then nan else x

theorem named_eq_iff (x : Single) : x.named = x ↔ x.isNaN = false ∨ x = nan := by
  rw [named]
  split
  · next h =>
      rw [h]
      exact ⟨fun hx => .inr hx.symm, fun hx => (hx.resolve_left (by decide)).symm⟩
  · next h => exact ⟨fun _ => .inl (Bool.not_eq_true _ |>.mp h), fun _ => rfl⟩

theorem toJson_named (x : Single) : x.named.toJson = x.toJson := by
  rw [named]
  split
  · next h => simp [toJson, h, show nan.isNaN = true by decide]
  · rfl

theorem ofJson?_toJson (x : Single) : ofJson? x.toJson = some x.named := by
  rw [named]
  by_cases hnan : x.isNaN = true
  · simp [toJson, hnan, ofJson?, Json.ofString]
  rw [if_neg hnan]
  by_cases hinf : x.isFinite = false
  · have hmagnitude : x.magnitude = 0x7f800000 := by
      simp only [isNaN, decide_eq_true_eq] at hnan
      simp only [isFinite, decide_eq_false_iff_not] at hinf
      omega
    rcases eq_of_magnitude hmagnitude with rfl | rfl <;> decide +kernel
  by_cases hzero : x.magnitude = 0
  · rcases eq_of_magnitude hzero with rfl | rfl <;> decide +kernel
  rw [Bool.not_eq_false] at hinf
  have hproper : x.Proper := ⟨by omega, by simpa [isFinite] using hinf⟩
  obtain ⟨m, q, h⟩ := hproper.exists_fields
  by_cases hexception : q = -107 ∧ (m = 11420669 ∨ m = 11420670)
  · apply ofJson?_toJson_of_exception
    have := h.magnitude
    omega
  · rw [toJson, if_neg hnan, hinf, if_neg (by decide), if_neg hzero]
    exact single?_ofDecimal h (by omega)

theorem reread_named (x : Single) : x.named.reread = some x.named := by
  rw [reread_eq, toJson_named, ofJson?_toJson]

/-- The text of a number is read as the number, bit for bit. -/
theorem reread_eq_some_iff (x : Single) : x.reread = some x ↔ x.isNaN = false ∨ x = nan := by
  rw [reread_eq, ofJson?_toJson, Option.some_inj, named_eq_iff]

end Single

end ModelExport
