import Mathlib.Algebra.Order.Field.Power
import Mathlib.Algebra.Order.Field.Rat
import Mathlib.Tactic.FieldSimp
import Mathlib.Tactic.Linarith
import Mathlib.Tactic.Positivity
import Mathlib.Tactic.Ring
import ModelExport.Decimal.Shortest

/-!
# What rounding does

The values of binary and decimal numbers as rationals, and what
`BinaryFormat.round` makes of a quotient: which value it gives
(`round_eq`), that it moves a quotient by half of the last bit at most
(`exists_round_near`), and that it does not move what the format holds
(`exists_round_exact`).
-/

namespace ModelExport

/-! ## Values -/

theorem num_pos_of_div_pos {num den : ℕ} (h : 0 < (num / den : ℚ)) : 0 < num := by
  by_contra hnum
  rw [Nat.le_zero.mp (Nat.not_lt.mp hnum), Nat.cast_zero, zero_div] at h
  exact h.ne rfl

theorem zpow_toNat {b : ℚ} (hb : b ≠ 0) (e : ℤ) : b ^ e.toNat / b ^ (-e).toNat = b ^ e := by
  rw [← zpow_natCast, ← zpow_natCast, ← zpow_sub₀ hb]
  congr 1
  omega

theorem two_zpow_add {q t : ℤ} (n : ℕ) (h : t = q + n) : (2 : ℚ) ^ t = 2 ^ n * 2 ^ q := by
  rw [h, zpow_add₀ two_ne_zero, zpow_natCast, mul_comm]

namespace Binary

/-- The number that is meant. -/
def value (x : Binary) : ℚ := x.significand * 2 ^ x.exponent

theorem den_pos (x : Binary) : 0 < x.den := Nat.pow_pos (by decide)

theorem num_div_den (x : Binary) : (x.num : ℚ) / x.den = x.value := by
  rw [num, den, value, ← zpow_toNat two_ne_zero, mul_div_assoc']
  push_cast [Nat.pow_eq]
  rfl

theorem num_pos {x : Binary} (h : 0 < x.value) : 0 < x.num :=
  num_pos_of_div_pos (x.num_div_den ▸ h)

end Binary

namespace Decimal

/-- The number that is meant. -/
def value (d : Decimal) : ℚ := d.digits * 10 ^ d.exponent

theorem den_pos (d : Decimal) : 0 < d.den := Nat.pow_pos (by decide)

theorem num_div_den (d : Decimal) : (d.num : ℚ) / d.den = d.value := by
  rw [num, den, value, ← zpow_toNat (by norm_num : (10 : ℚ) ≠ 0), mul_div_assoc']
  push_cast [Nat.pow_eq]
  rfl

variable (d : Decimal) (x : Binary)

theorem compareBinary_lt : d.compareBinary x = .lt ↔ d.value < x.value := by
  rw [compareBinary, Nat.compare_eq_lt, ← num_div_den, ← Binary.num_div_den,
    div_lt_div_iff₀ (mod_cast d.den_pos) (mod_cast x.den_pos)]
  norm_cast

theorem compareBinary_gt : d.compareBinary x = .gt ↔ x.value < d.value := by
  rw [compareBinary, Nat.compare_eq_gt, ← num_div_den, ← Binary.num_div_den,
    div_lt_div_iff₀ (mod_cast x.den_pos) (mod_cast d.den_pos)]
  norm_cast

theorem compareBinary_eq : d.compareBinary x = .eq ↔ d.value = x.value := by
  rw [compareBinary, Nat.compare_eq_eq, ← num_div_den, ← Binary.num_div_den,
    div_eq_div_iff (mod_cast d.den_pos.ne') (mod_cast x.den_pos.ne')]
  norm_cast

end Decimal

/-! ## The nearest natural number -/

section roundDiv

variable {num den r : ℕ}

/-- The quotient without and with its remainder, in natural numbers. -/
theorem roundDiv_cases :
    (roundDiv num den = num / den ∧ 2 * (num % den) ≤ den
        ∧ (2 * (num % den) = den → (num / den) % 2 = 0))
      ∨ (roundDiv num den = num / den + 1 ∧ den ≤ 2 * (num % den)
        ∧ (2 * (num % den) = den → (num / den) % 2 = 1)) := by
  unfold roundDiv
  rcases Nat.lt_trichotomy (2 * (num % den)) den with h | h | h
  · left
    rw [Nat.compare_eq_lt.mpr h]
    exact ⟨rfl, h.le, fun he => absurd he h.ne⟩
  · rw [Nat.compare_eq_eq.mpr h]
    by_cases heven : num / den % 2 = 0
    · exact .inl ⟨if_pos heven, h.le, fun _ => heven⟩
    · exact .inr ⟨if_neg heven, h.ge, fun _ => by omega⟩
  · right
    rw [Nat.compare_eq_gt.mpr h]
    exact ⟨rfl, h.le, fun he => absurd he h.ne'⟩

/-- The quotient as its whole part and a proper fraction. -/
theorem div_eq_add (hden : 0 < den) :
    (num / den : ℚ) = (num / den : ℕ) + (num % den : ℕ) / (den : ℚ) := by
  have hpos : (0 : ℚ) < den := mod_cast hden
  have hsplit : (den * (num / den : ℕ) + (num % den : ℕ) : ℚ) = num :=
    mod_cast Nat.div_add_mod num den
  rw [← hsplit]
  field_simp

theorem abs_roundDiv_sub_le (hden : 0 < den) : |(roundDiv num den : ℚ) - num / den| ≤ 1 / 2 := by
  have hpos : (0 : ℚ) < den := mod_cast hden
  have hlt : (num % den : ℕ) / (den : ℚ) < 1 :=
    (div_lt_one hpos).mpr (mod_cast Nat.mod_lt num hden)
  have hnonneg : 0 ≤ (num % den : ℕ) / (den : ℚ) := by positivity
  rw [div_eq_add hden, abs_le]
  rcases @roundDiv_cases num den with ⟨hr, hhalf, -⟩ | ⟨hr, hhalf, -⟩
  · have hle : (num % den : ℕ) / (den : ℚ) ≤ 1 / 2 := by
      rw [div_le_div_iff₀ hpos two_pos]
      exact_mod_cast (by omega : num % den * 2 ≤ 1 * den)
    rw [hr]
    constructor <;> linarith
  · have hge : 1 / 2 ≤ (num % den : ℕ) / (den : ℚ) := by
      rw [div_le_div_iff₀ two_pos hpos]
      exact_mod_cast (by omega : 1 * den ≤ num % den * 2)
    rw [hr]
    push_cast
    constructor <;> linarith

/-- A number no farther than one half, unless it is odd and the distance is exactly that. -/
theorem roundDiv_eq (hden : 0 < den) (hlow : (r : ℚ) - 1 / 2 ≤ num / den)
    (hhigh : (num / den : ℚ) ≤ r + 1 / 2)
    (hodd : r % 2 = 1 → (r : ℚ) - 1 / 2 < num / den ∧ (num / den : ℚ) < r + 1 / 2) :
    roundDiv num den = r := by
  have hpos : (0 : ℚ) < den := mod_cast hden
  have hlt : (num % den : ℕ) / (den : ℚ) < 1 :=
    (div_lt_one hpos).mpr (mod_cast Nat.mod_lt num hden)
  have hhalf : (num % den : ℕ) / (den : ℚ) = 1 / 2 → 2 * (num % den) = den := fun he => by
    rw [div_eq_div_iff hpos.ne' two_ne_zero] at he
    have : num % den * 2 = 1 * den := mod_cast he
    omega
  rw [div_eq_add hden] at hlow hhigh hodd
  rcases @roundDiv_cases num den with ⟨hr, hle, htie⟩ | ⟨hr, hge, htie⟩
  · have hle' : (num % den : ℕ) / (den : ℚ) ≤ 1 / 2 := by
      rw [div_le_div_iff₀ hpos two_pos]
      exact_mod_cast (by omega : num % den * 2 ≤ 1 * den)
    have hnonneg : 0 ≤ (num % den : ℕ) / (den : ℚ) := by positivity
    have h₁ : r ≤ num / den + 1 := by
      have : (r : ℚ) ≤ (num / den + 1 : ℕ) := by push_cast; linarith
      exact_mod_cast this
    have h₂ : num / den < r + 1 := by
      have : ((num / den : ℕ) : ℚ) < (r + 1 : ℕ) := by push_cast; linarith
      exact_mod_cast this
    rw [hr]
    by_contra hne
    obtain rfl : r = num / den + 1 := by omega
    push_cast at hlow hodd
    have heven := htie (hhalf (by linarith))
    have := (hodd (by omega)).1
    linarith
  · have hge' : 1 / 2 ≤ (num % den : ℕ) / (den : ℚ) := by
      rw [div_le_div_iff₀ two_pos hpos]
      exact_mod_cast (by omega : 1 * den ≤ num % den * 2)
    have h₁ : r < num / den + 2 := by
      have : (r : ℚ) < (num / den + 2 : ℕ) := by push_cast; linarith
      exact_mod_cast this
    have h₂ : num / den ≤ r := by
      have : ((num / den : ℕ) : ℚ) ≤ r := by linarith
      exact_mod_cast this
    rw [hr]
    by_contra hne
    obtain rfl : r = num / den := by omega
    have hone := htie (hhalf (by linarith))
    have := (hodd hone).2
    linarith

theorem roundDiv_exact (hden : 0 < den) (h : (num / den : ℚ) = r) : roundDiv num den = r := by
  apply roundDiv_eq hden <;> rw [h]
  · linarith
  · linarith
  · intro
    constructor <;> linarith

end roundDiv

/-! ## The greatest power of two -/

section logDiv

variable {num den : ℕ}

theorem two_pow_log2_le {n : ℕ} (h : 0 < n) : (2 : ℚ) ^ (n.log2 : ℤ) ≤ n := by
  rw [zpow_natCast]
  exact_mod_cast Nat.log2_self_le h.ne'

theorem lt_two_pow_log2 {n : ℕ} : (n : ℚ) < 2 ^ ((n.log2 : ℤ) + 1) := by
  rw [← Nat.cast_succ, zpow_natCast]
  exact_mod_cast Nat.lt_log2_self

/-- The quotient reaches the power of two, tested on natural numbers. -/
theorem two_zpow_le_div_iff (hden : 0 < den) (e : ℤ) :
    (2 : ℚ) ^ e ≤ num / den ↔ den * Nat.pow 2 e.toNat ≤ num * Nat.pow 2 (-e).toNat := by
  have hpos : (0 : ℚ) < den := mod_cast hden
  have hpow : (0 : ℚ) < 2 ^ (-e).toNat := by positivity
  rw [← zpow_toNat two_ne_zero, div_le_div_iff₀ hpow hpos, mul_comm]
  exact_mod_cast Iff.rfl

theorem logDiv_bounds (hnum : 0 < num) (hden : 0 < den) :
    (2 : ℚ) ^ logDiv num den ≤ num / den ∧ (num / den : ℚ) < 2 ^ (logDiv num den + 1) := by
  have hpos : (0 : ℚ) < den := mod_cast hden
  set e : ℤ := (num.log2 : ℤ) - (den.log2 : ℤ) with he
  -- the difference of the two logarithms is off by one at most
  have hlow : (2 : ℚ) ^ (e - 1) ≤ num / den := by
    rw [le_div_iff₀ hpos]
    calc (2 : ℚ) ^ (e - 1) * den ≤ 2 ^ (e - 1) * 2 ^ ((den.log2 : ℤ) + 1) := by
          gcongr
          exact lt_two_pow_log2.le
      _ = 2 ^ (num.log2 : ℤ) := by
          rw [← zpow_add₀ two_ne_zero]
          congr 1
          omega
      _ ≤ num := two_pow_log2_le hnum
  have hhigh : (num / den : ℚ) < 2 ^ (e + 1) := by
    rw [div_lt_iff₀ hpos]
    calc (num : ℚ) < 2 ^ ((num.log2 : ℤ) + 1) := lt_two_pow_log2
      _ = 2 ^ (e + 1) * 2 ^ (den.log2 : ℤ) := by
          rw [← zpow_add₀ two_ne_zero]
          congr 1
          omega
      _ ≤ 2 ^ (e + 1) * den := by
          gcongr
          exact two_pow_log2_le hden
  have hlog : logDiv num den = if (2 : ℚ) ^ e ≤ num / den then e else e - 1 := by
    simp only [logDiv, two_zpow_le_div_iff hden, he]
  rw [hlog]
  split
  · next h => exact ⟨h, hhigh⟩
  · next h => exact ⟨hlow, by simpa using h⟩

end logDiv

/-! ## Rounding to a format -/

namespace BinaryFormat

variable {f : BinaryFormat} {num den : ℕ}

theorem scaled_div (q : ℤ) :
    (((num * Nat.pow 2 (-q).toNat : ℕ) : ℚ) / (den * Nat.pow 2 q.toNat : ℕ))
      = num / den / 2 ^ q := by
  rw [← zpow_toNat two_ne_zero]
  push_cast [Nat.pow_eq]
  field_simp

theorem round_eq {q : ℤ} {m : ℕ} (hnum : 0 < num) (hq : f.lastBit num den = q)
    (hm : roundDiv (num * Nat.pow 2 (-q).toNat) (den * Nat.pow 2 q.toNat) = m)
    (hfinite : q + f.precision < f.maxExp
      ∨ q + f.precision = f.maxExp ∧ m < 2 ^ f.precision) :
    f.round num den = some ⟨m, q⟩ := by
  rw [round, if_neg hnum.ne']
  simp only [hq, hm]
  rw [if_neg]
  rintro (h | ⟨h, hle⟩)
  · omega
  · rcases hfinite with h' | ⟨-, hlt⟩
    · omega
    · exact absurd hle (Nat.not_le.mpr hlt)

theorem lastBit_eq {q : ℤ} (hnum : 0 < num) (hden : 0 < den) (hmin : f.minExp ≤ q)
    (hlow : (2 : ℚ) ^ (q + f.precision - 1) ≤ num / den ∨ q = f.minExp)
    (hhigh : (num / den : ℚ) < 2 ^ (q + f.precision)) : f.lastBit num den = q := by
  obtain ⟨hle, hlt⟩ := logDiv_bounds hnum hden
  have hlog : logDiv num den < q + f.precision := by
    have := hle.trans_lt hhigh
    rwa [zpow_lt_zpow_iff_right₀ one_lt_two] at this
  have hlog' : q + f.precision - 1 ≤ logDiv num den ∨ q = f.minExp := hlow.imp_left fun h => by
    have := h.trans_lt hlt
    rw [zpow_lt_zpow_iff_right₀ one_lt_two] at this
    omega
  rw [lastBit]
  omega

/-- A value is taken from both sides up to half of its last bit, and from
there too if it is even. -/
theorem round_of_near {q : ℤ} {m : ℕ} (hden : 0 < den) (hmin : f.minExp ≤ q)
    (hlow : (2 : ℚ) ^ (q + f.precision - 1) ≤ num / den ∨ q = f.minExp)
    (hhigh : (num / den : ℚ) < 2 ^ (q + f.precision)) (hm : 0 < m)
    (hge : (2 * m - 1) * 2 ^ (q - 1) ≤ (num / den : ℚ))
    (hle : (num / den : ℚ) ≤ (2 * m + 1) * 2 ^ (q - 1))
    (hodd : m % 2 = 1 → (2 * m - 1) * 2 ^ (q - 1) < (num / den : ℚ)
      ∧ (num / den : ℚ) < (2 * m + 1) * 2 ^ (q - 1))
    (hfinite : q + f.precision < f.maxExp
      ∨ q + f.precision = f.maxExp ∧ m < 2 ^ f.precision) :
    f.round num den = some ⟨m, q⟩ := by
  have hpow : (0 : ℚ) < 2 ^ q := by positivity
  have hhalf : (2 : ℚ) ^ q = 2 ^ 1 * 2 ^ (q - 1) := two_zpow_add 1 (by omega)
  have hone : (1 : ℚ) ≤ m := mod_cast hm
  have hnum : 0 < num := by
    refine @num_pos_of_div_pos num den (lt_of_lt_of_le (mul_pos ?_ ?_) hge)
    · linarith
    · positivity
  have hscaled : 0 < den * Nat.pow 2 q.toNat := Nat.mul_pos hden (Nat.pow_pos (by decide))
  refine round_eq hnum (lastBit_eq hnum hden hmin hlow hhigh) ?_ hfinite
  apply roundDiv_eq hscaled
  · rw [scaled_div, le_div_iff₀ hpow, hhalf]
    linarith
  · rw [scaled_div, div_le_iff₀ hpow, hhalf]
    linarith
  · intro h
    obtain ⟨hgt, hlt⟩ := hodd h
    rw [scaled_div, lt_div_iff₀ hpow, div_lt_iff₀ hpow, hhalf]
    constructor <;> linarith

/-- Where the format has all its bits, a quotient moves by half of the last one at most. -/
theorem exists_round_near {v : ℚ} (hden : 0 < den) (hv : (num / den : ℚ) = v)
    (hlow : (2 : ℚ) ^ (f.minExp + f.precision - 1) ≤ v) (hhigh : v < 2 ^ (f.maxExp - 1)) :
    ∃ y, f.round num den = some y ∧ |y.value - v| ≤ v / 2 ^ f.precision := by
  have hpos : 0 < v := lt_of_lt_of_le (by positivity) hlow
  have hnum : 0 < num := num_pos_of_div_pos (hv ▸ hpos)
  obtain ⟨hle, hlt⟩ := logDiv_bounds hnum hden
  rw [hv] at hle hlt
  have hlog : f.minExp + f.precision - 1 ≤ logDiv num den := by
    have := hlow.trans_lt hlt
    rw [zpow_lt_zpow_iff_right₀ one_lt_two] at this
    omega
  have hfinite : logDiv num den < f.maxExp - 1 := by
    have := hle.trans_lt hhigh
    rwa [zpow_lt_zpow_iff_right₀ one_lt_two] at this
  have hq : f.lastBit num den = logDiv num den - f.precision + 1 := max_eq_left (by omega)
  refine ⟨_, round_eq hnum hq rfl (.inl (by omega)), ?_⟩
  set q := logDiv num den - f.precision + 1
  have hmove := @abs_roundDiv_sub_le (num * Nat.pow 2 (-q).toNat) (den * Nat.pow 2 q.toNat)
    (Nat.mul_pos hden (Nat.pow_pos (by decide)))
  rw [scaled_div, hv] at hmove
  set m := roundDiv (num * Nat.pow 2 (-q).toNat) (den * Nat.pow 2 q.toNat)
  have hpow : (0 : ℚ) < 2 ^ q := by positivity
  calc |Binary.value ⟨m, q⟩ - v| = |(m : ℚ) - v / 2 ^ q| * 2 ^ q := by
        rw [Binary.value, ← abs_of_pos hpow, ← abs_mul, abs_of_pos hpow, sub_mul,
          div_mul_cancel₀ _ hpow.ne']
    _ ≤ 1 / 2 * 2 ^ q := by gcongr
    _ = 2 ^ logDiv num den / 2 ^ f.precision := by
        rw [← zpow_natCast, ← zpow_sub₀ two_ne_zero, one_div, ← zpow_neg_one,
          ← zpow_add₀ two_ne_zero]
        congr 1
        omega
    _ ≤ v / 2 ^ f.precision := by gcongr

/-- What the format holds is not moved. -/
theorem exists_round_exact {k : ℕ} {t : ℤ} (hden : 0 < den) (hv : (num / den : ℚ) = k * 2 ^ t)
    (hk : 0 < k) (hbits : k < 2 ^ f.precision) (ht : f.minExp ≤ t)
    (hformat : f.minExp + f.precision < f.maxExp)
    (hhigh : (num / den : ℚ) < 2 ^ (f.maxExp - 1)) :
    ∃ y, f.round num den = some y ∧ y.value = k * 2 ^ t := by
  have hpos : (0 : ℚ) < k * 2 ^ t := by positivity
  have hnum : 0 < num := num_pos_of_div_pos (hv ▸ hpos)
  obtain ⟨hle, hlt⟩ := logDiv_bounds hnum hden
  have hfinite : logDiv num den < f.maxExp - 1 := by
    have := hle.trans_lt hhigh
    rwa [zpow_lt_zpow_iff_right₀ one_lt_two] at this
  -- the last bit weighs no more than the power that the value is a multiple of
  have hlog : logDiv num den < f.precision + t := by
    have hbits' : (k : ℚ) < 2 ^ (f.precision : ℤ) := by
      rw [zpow_natCast]
      exact_mod_cast hbits
    have hval : (num / den : ℚ) < 2 ^ (f.precision + t) := by
      rw [hv, zpow_add₀ two_ne_zero]
      gcongr
    have := hle.trans_lt hval
    rwa [zpow_lt_zpow_iff_right₀ one_lt_two] at this
  obtain ⟨q, hq⟩ : ∃ q, f.lastBit num den = q := ⟨_, rfl⟩
  have hcases : q = logDiv num den - f.precision + 1 ∨ q = f.minExp := by
    rw [← hq, lastBit]
    omega
  have hle_t : q ≤ t := by omega
  have hm : roundDiv (num * Nat.pow 2 (-q).toNat) (den * Nat.pow 2 q.toNat)
      = k * 2 ^ (t - q).toNat := by
    have hscaled : 0 < den * Nat.pow 2 q.toNat := Nat.mul_pos hden (Nat.pow_pos (by decide))
    apply roundDiv_exact hscaled
    rw [scaled_div, hv, mul_div_assoc, ← zpow_sub₀ two_ne_zero]
    push_cast
    rw [← zpow_natCast, Int.toNat_of_nonneg (by omega)]
  refine ⟨_, round_eq hnum hq hm (.inl (by omega)), ?_⟩
  rw [Binary.value]
  push_cast
  rw [← zpow_natCast, Int.toNat_of_nonneg (by omega), mul_assoc, ← zpow_add₀ two_ne_zero]
  congr 2
  omega

end BinaryFormat

end ModelExport
