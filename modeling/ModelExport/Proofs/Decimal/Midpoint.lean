import Mathlib.Tactic.LinearCombination
import ModelExport.Proofs.Decimal.Shortest

/-!
# How close a shortest decimal comes to a midpoint

A reader that rounds twice goes wrong when a decimal lies so close to a
point half way between two numbers that the first rounding takes it over.
This module shows that a shortest decimal never does: it is the midpoint
itself or farther from it than two roundings reach (`Apart`), for every
number but two neighbours (`Single.apart_of_printed`).

On a grid coarser than the distance of the neighbours the multiples of
the grid, `n * 10 ^ e`, are compared with the odd multiples of half that
distance, `j * 2 ^ (p - 1)`. If two of them were close, `n / j` would be
close to one quotient that depends on `p` alone; then it is equal to a
fraction of small terms, a convergent of the continued fraction, and there
is one distance to be looked at for each of the 254 exponents. On a finer
grid the nearest decimal is taken, and that one is far from both ends.
-/

namespace ModelExport

/-- The same point, or farther than two roundings reach. -/
def Apart (d midpoint : ℚ) : Prop := d = midpoint ∨ 5 * midpoint < 2 ^ 54 * |d - midpoint|

namespace Midpoint

/-! ## The fraction -/

/-- The least `e` with `2 ^ p ≤ 10 ^ e`, for the exponents that occur. -/
def gridExponent (p : ℤ) : ℤ := -(-p * 30103 / 100000)

/-- The weight of the grid in a unit common to both sides. -/
def decimalUnit (p e : ℤ) : ℕ := 10 ^ e.toNat * 2 ^ (1 - p).toNat

/-- Half the distance of the neighbours in that unit. -/
def binaryUnit (p e : ℤ) : ℕ := 10 ^ (-e).toNat * 2 ^ (p - 1).toNat

/-- The distance of two natural numbers. -/
def gap (x y : ℕ) : ℕ := (x - y) + (y - x)

/-- The fraction `a / b` is so close to `B / A` that no other fraction with
a denominator of 25 bits is as close. -/
def isSharp (A B a b : ℕ) : Bool :=
  0 < b && 2 ^ 25 * (5 * (B * b) + 2 ^ 54 * gap (B * b) (a * A)) < 2 ^ 54 * A

/-- The fraction is equal to the quotient or far enough from it. -/
def isApart (A B a b : ℕ) : Bool :=
  a * A = B * b || 5 * (B * b) < 2 ^ 54 * gap (B * b) (a * A)

/-- Goes through the convergents of `B / A` to the first sharp one and
tests it. The last four numbers are the last two convergents. -/
def testConvergents (test : ℕ → ℕ → Bool) (A B : ℕ) : ℕ → ℕ → ℕ → ℕ → ℕ → ℕ → ℕ → Bool
  | 0, _, _, _, _, _, _ => false
  | bound + 1, x, y, a₀, b₀, a₁, b₁ =>
      let a := x / y * a₁ + a₀
      let b := x / y * b₁ + b₀
      if isSharp A B a b then test a b else testConvergents test A B bound y (x % y) a₁ b₁ a b

/-- The only fraction that is neither. -/
def isException (p : ℤ) (a b : ℕ) : Bool := p = -107 && a = 7038531 && b = 22841339

def testExponent (p : ℤ) : Bool :=
  let e := gridExponent p
  let A := decimalUnit p e
  let B := binaryUnit p e
  testConvergents (fun a b => isApart A B a b || isException p a b) A B 30 B A 0 1 1 0

/-- Up to the grid exponent the powers of ten stay below the power of two,
by more than the precision of a number. -/
def testGrid (p : ℤ) : Bool :=
  let e := gridExponent p
  2 ^ p.toNat * 10 ^ (-e).toNat ≤ 10 ^ e.toNat * 2 ^ (-p).toNat
    && 10 ^ (e - 1).toNat * 2 ^ (-p).toNat * 2 ^ 26
      ≤ 2 ^ p.toNat * 10 ^ (-(e - 1)).toNat * (2 ^ 26 - 1)

/-- The multiples of the grid next to `j` midpoints are the same point or apart from it. -/
def testPoint (p e : ℤ) (j : ℕ) : Bool :=
  let A := decimalUnit p e
  let B := binaryUnit p e
  let r := j * B % A
  5 * (j * B) < 2 ^ 54 * (if r = 0 then A else min r (A - r))

/-- Both ends of a power of two, on the finest grid that its decimal may have. -/
def testPower (q : ℤ) : Bool :=
  let e := gridExponent q - 2
  testPoint q e (2 ^ 24 + 1) && testPoint (q - 1) e (2 ^ 25 - 1)

theorem tests_of_lt : ∀ i < 254, testExponent ((i : ℕ) - 149) = true
    ∧ testGrid ((i : ℕ) - 149) = true ∧ testPower ((i : ℕ) - 149) = true := by
  decide +kernel

theorem tests {p : ℤ} (hlow : -149 ≤ p) (hhigh : p ≤ 104) :
    testExponent p = true ∧ testGrid p = true ∧ testPower p = true := by
  have := tests_of_lt (p + 149).toNat (by omega)
  rwa [Int.toNat_of_nonneg (by omega), add_sub_cancel_right] at this

theorem cast_gap (x y : ℕ) : (gap x y : ℤ) = |(x : ℤ) - y| := by
  rw [gap]
  rcases le_total x y with h | h
  · rw [abs_of_nonpos (by omega)]
    omega
  · rw [abs_of_nonneg (by omega)]
    omega

theorem exists_of_testConvergents {test : ℕ → ℕ → Bool} {A B bound x y a₀ b₀ a₁ b₁ : ℕ}
    (h : testConvergents test A B bound x y a₀ b₀ a₁ b₁ = true) :
    ∃ a b, isSharp A B a b = true ∧ test a b = true := by
  induction bound generalizing x y a₀ b₀ a₁ b₁ with
  | zero => cases h
  | succ bound ih =>
      rw [testConvergents] at h
      split at h
      · next hsharp => exact ⟨_, _, hsharp, h⟩
      · exact ih h

theorem zpow_mul_pow_toNat {b : ℚ} (hb : b ≠ 0) (e : ℤ) : b ^ e * b ^ (-e).toNat = b ^ e.toNat := by
  rw [← zpow_toNat hb, div_mul_cancel₀ _ (pow_ne_zero _ hb)]

theorem grid_bounds {p : ℤ} (hlow : -149 ≤ p) (hhigh : p ≤ 104) :
    (2 : ℚ) ^ p ≤ 10 ^ gridExponent p
      ∧ (10 : ℚ) ^ (gridExponent p - 1) * 2 ^ 26 ≤ 2 ^ p * (2 ^ 26 - 1) := by
  have htest := (tests hlow hhigh).2.1
  simp only [testGrid, Bool.and_eq_true, decide_eq_true_eq] at htest
  obtain ⟨h₁, h₂⟩ := htest
  have h₁' : (2 : ℚ) ^ p.toNat * 10 ^ (-gridExponent p).toNat
      ≤ 10 ^ (gridExponent p).toNat * 2 ^ (-p).toNat := mod_cast h₁
  have h₂' : (10 : ℚ) ^ (gridExponent p - 1).toNat * 2 ^ (-p).toNat * 2 ^ 26
      ≤ 2 ^ p.toNat * 10 ^ (-(gridExponent p - 1)).toNat * (2 ^ 26 - 1) := by
    have : ((2 ^ 26 - 1 : ℕ) : ℚ) = 2 ^ 26 - 1 := by norm_num
    rw [← this]
    exact_mod_cast h₂
  have hten : (10 : ℚ) ≠ 0 := by norm_num
  rw [← zpow_mul_pow_toNat two_ne_zero p, ← zpow_mul_pow_toNat hten (gridExponent p)] at h₁'
  rw [← zpow_mul_pow_toNat two_ne_zero p, ← zpow_mul_pow_toNat hten (gridExponent p - 1)] at h₂'
  have hpos₁ : (0 : ℚ) < 2 ^ (-p).toNat * 10 ^ (-gridExponent p).toNat := by positivity
  have hpos₂ : (0 : ℚ) < 2 ^ (-p).toNat * 10 ^ (-(gridExponent p - 1)).toNat := by positivity
  constructor
  · refine le_of_mul_le_mul_right ?_ hpos₁
    linarith
  · refine le_of_mul_le_mul_right ?_ hpos₂
    linarith

section units

variable {A B a b n j : ℕ}

/-- Two multiples that are close have the ratio of the sharp fraction. -/
theorem mul_eq_of_close (hsharp : isSharp A B a b = true) (hj : j < 2 ^ 25)
    (hclose : 2 ^ 54 * |(n * A : ℤ) - j * B| ≤ 5 * (j * B)) : n * b = a * j := by
  have hcheck : (2 : ℤ) ^ 25 * (5 * (B * b) + 2 ^ 54 * |(B * b : ℤ) - a * A|) < 2 ^ 54 * A := by
    rw [isSharp, Bool.and_eq_true, decide_eq_true_eq, decide_eq_true_eq] at hsharp
    have := hsharp.2
    rw [← Nat.cast_mul, ← Nat.cast_mul, ← cast_gap]
    exact_mod_cast this
  have hA : (0 : ℤ) < A := by
    have : (0 : ℤ) ≤ 2 ^ 25 * (5 * (B * b) + 2 ^ 54 * |(B * b : ℤ) - a * A|) := by positivity
    linarith
  have hdiff : |(n * b : ℤ) - a * j| * A ≤ |(n * A : ℤ) - j * B| * b + j * |(B * b : ℤ) - a * A| :=
    calc |(n * b : ℤ) - a * j| * A = |((n * A : ℤ) - j * B) * b + j * (B * b - a * A)| := by
          rw [← abs_of_pos hA, ← abs_mul, abs_of_pos hA]
          congr 1
          ring
      _ ≤ |((n * A : ℤ) - j * B) * b| + |(j : ℤ) * (B * b - a * A)| := abs_add_le _ _
      _ = |(n * A : ℤ) - j * B| * b + j * |(B * b : ℤ) - a * A| := by
          rw [abs_mul, abs_mul, Nat.abs_cast, Nat.abs_cast]
  have hsmall : 2 ^ 54 * (|(n * b : ℤ) - a * j| * A) < 2 ^ 54 * A :=
    calc 2 ^ 54 * (|(n * b : ℤ) - a * j| * A)
        ≤ 2 ^ 54 * |(n * A : ℤ) - j * B| * b + 2 ^ 54 * (j * |(B * b : ℤ) - a * A|) := by linarith
      _ ≤ 5 * (j * B) * b + 2 ^ 54 * (j * |(B * b : ℤ) - a * A|) := by gcongr
      _ = j * (5 * (B * b) + 2 ^ 54 * |(B * b : ℤ) - a * A|) := by ring
      _ ≤ 2 ^ 25 * (5 * (B * b) + 2 ^ 54 * |(B * b : ℤ) - a * A|) := by
          gcongr
          exact_mod_cast hj.le
      _ < 2 ^ 54 * A := hcheck
  have hzero : |(n * b : ℤ) - a * j| < 1 := by
    by_contra hge
    have := mul_le_mul_of_nonneg_right (not_lt.mp hge) hA.le
    linarith
  have := abs_lt.mp hzero
  exact_mod_cast (by omega : (n * b : ℤ) = a * j)

/-- The multiples are then as far from each other as the fraction from the quotient. -/
theorem apart_of_isApart (hb : 0 < b) (hratio : n * b = a * j) (hj : 0 < j)
    (hapart : isApart A B a b = true) :
    (n * A : ℤ) = j * B ∨ 5 * (j * B : ℤ) < 2 ^ 54 * |(n * A : ℤ) - j * B| := by
  have hb' : (0 : ℤ) < b := mod_cast hb
  have hratio' : (n * b : ℤ) = a * j := mod_cast hratio
  rw [isApart, Bool.or_eq_true, decide_eq_true_eq, decide_eq_true_eq] at hapart
  rcases hapart with hsame | hfar
  · left
    have hsame' : (a * A : ℤ) = B * b := mod_cast hsame
    refine mul_right_cancel₀ hb'.ne' ?_
    calc (n * A * b : ℤ) = a * j * A := by rw [← hratio']; ring
      _ = j * (B * b) := by rw [← hsame']; ring
      _ = j * B * b := by ring
  · right
    have hfar' : 5 * (B * b : ℤ) < 2 ^ 54 * |(B * b : ℤ) - a * A| := by
      rw [← Nat.cast_mul, ← Nat.cast_mul, ← cast_gap]
      exact_mod_cast hfar
    refine lt_of_mul_lt_mul_right ?_ hb'.le
    calc 5 * (j * B : ℤ) * b = j * (5 * (B * b)) := by ring
      _ < j * (2 ^ 54 * |(B * b : ℤ) - a * A|) := by
          gcongr
      _ = 2 ^ 54 * |(j * (B * b - a * A) : ℤ)| := by
          rw [abs_mul, Nat.abs_cast]
          ring
      _ = 2 ^ 54 * |((n * A : ℤ) - j * B) * b| := by
          rw [← abs_neg]
          congr 2
          linear_combination -(A : ℤ) * hratio'
      _ = 2 ^ 54 * |(n * A : ℤ) - j * B| * b := by
          rw [abs_mul, Nat.abs_cast]
          ring

end units

/-- Both sides in the common unit. -/
theorem apart_of_units {p e : ℤ} {n j : ℕ}
    (h : (n * decimalUnit p e : ℤ) = j * binaryUnit p e
      ∨ 5 * (j * binaryUnit p e : ℤ) < 2 ^ 54 * |(n * decimalUnit p e : ℤ) - j * binaryUnit p e|) :
    Apart (n * 10 ^ e) (j * 2 ^ (p - 1)) := by
  have hten : (10 : ℚ) ≠ 0 := by norm_num
  obtain ⟨c, hc⟩ : ∃ c : ℚ, c = 10 ^ (-e).toNat * 2 ^ (1 - p).toNat := ⟨_, rfl⟩
  have hpos : 0 < c := by rw [hc]; positivity
  have hleft : (n * 10 ^ e : ℚ) * c = (n * decimalUnit p e : ℤ) := by
    rw [decimalUnit, hc]
    push_cast
    rw [← zpow_mul_pow_toNat hten e]
    ring
  have hright : (j * 2 ^ (p - 1) : ℚ) * c = (j * binaryUnit p e : ℤ) := by
    rw [binaryUnit, hc]
    push_cast
    rw [← zpow_mul_pow_toNat two_ne_zero (p - 1), neg_sub]
    ring
  rcases h with hsame | hfar
  · left
    refine mul_right_cancel₀ hpos.ne' ?_
    rw [hleft, hright, hsame]
  · right
    refine lt_of_mul_lt_mul_right ?_ hpos.le
    have hfar' : 5 * ((j * binaryUnit p e : ℤ) : ℚ)
        < 2 ^ 54 * |((n * decimalUnit p e : ℤ) : ℚ) - (j * binaryUnit p e : ℤ)| := by
      exact_mod_cast hfar
    calc 5 * (j * 2 ^ (p - 1)) * c = 5 * ((j * 2 ^ (p - 1)) * c) := by ring
      _ < 2 ^ 54 * |(n * 10 ^ e) * c - (j * 2 ^ (p - 1)) * c| := by
          rw [hleft, hright]
          exact hfar'
      _ = 2 ^ 54 * |(n * 10 ^ e : ℚ) - j * 2 ^ (p - 1)| * c := by
          rw [← sub_mul, abs_mul, abs_of_pos hpos]
          ring

/-- A decimal as a multiple of a finer grid. -/
theorem exists_mul_eq (n : ℕ) {e f : ℤ} (h : f ≤ e) :
    ∃ k : ℕ, (n * 10 ^ e : ℚ) = k * 10 ^ f := by
  refine ⟨n * 10 ^ (e - f).toNat, ?_⟩
  push_cast
  rw [← zpow_natCast, Int.toNat_of_nonneg (by omega), mul_assoc, ← zpow_add₀ (by norm_num)]
  congr 2
  omega

section grids

variable {p e : ℤ} {n j : ℕ}

/-- On a grid no finer than the distance of the neighbours. -/
theorem apart_of_coarse (hlow : -149 ≤ p) (hhigh : p ≤ 104) (hj : 0 < j) (hj' : j < 2 ^ 25)
    (hexception : p = -107 → j ≠ 22841339) (he : (2 : ℚ) ^ p ≤ 10 ^ e) :
    Apart (n * 10 ^ e) (j * 2 ^ (p - 1)) := by
  have hgrid : gridExponent p ≤ e := by
    have hbelow := (grid_bounds hlow hhigh).2
    have hpow : (0 : ℚ) < 2 ^ p := by positivity
    have : (10 : ℚ) ^ (gridExponent p - 1) < 10 ^ e := by linarith
    rw [zpow_lt_zpow_iff_right₀ (by norm_num)] at this
    omega
  obtain ⟨k, hk⟩ := exists_mul_eq n hgrid
  rw [hk]
  apply apart_of_units
  by_cases hclose : 2 ^ 54 * |(k * decimalUnit p (gridExponent p) : ℤ)
      - j * binaryUnit p (gridExponent p)| ≤ 5 * (j * binaryUnit p (gridExponent p))
  · obtain ⟨a, b, hsharp, htest⟩ := exists_of_testConvergents (tests hlow hhigh).1
    have hratio := mul_eq_of_close hsharp hj' hclose
    rw [isSharp, Bool.and_eq_true, decide_eq_true_eq] at hsharp
    rw [Bool.or_eq_true] at htest
    rcases htest with hapart | hexc
    · exact apart_of_isApart hsharp.1 hratio hj hapart
    · -- the denominator is so large that only one midpoint is met
      simp only [isException, Bool.and_eq_true, decide_eq_true_eq] at hexc
      obtain ⟨⟨hp, rfl⟩, rfl⟩ := hexc
      have hdvd : 22841339 ∣ j := by
        have hcoprime : Nat.Coprime 22841339 7038531 := by decide +kernel
        exact hcoprime.dvd_of_dvd_mul_left ⟨k, by rw [← hratio, Nat.mul_comm]⟩
      obtain ⟨t, rfl⟩ := hdvd
      have := hexception hp
      omega
  · exact .inr (not_le.mp hclose)

/-- A multiple of `A` is no nearer to a number than the nearest two, unless it is the number. -/
theorem le_abs_sub_of_mod {A n t r : ℕ} (hr : r < A) (hne : ¬(r = 0 ∧ n = t)) :
    ((if r = 0 then A else min r (A - r) : ℕ) : ℤ) ≤ |(n * A : ℤ) - (A * t + r)| := by
  generalize hleast : (if r = 0 then A else min r (A - r)) = least
  rw [le_abs]
  rcases lt_trichotomy n t with hlt | rfl | hgt
  · -- a whole step below, where the remainder makes it even farther
    right
    have : (A : ℤ) * (n + 1) ≤ A * t := by
      gcongr
      exact_mod_cast hlt
    have : least ≤ A := by split at hleast <;> omega
    linarith
  · right
    have : least ≤ r := by split at hleast <;> omega
    have : (least : ℤ) ≤ r := mod_cast this
    linarith
  · left
    have : (A : ℤ) * (t + 1) ≤ A * n := by
      gcongr
      exact_mod_cast hgt
    have : least + r ≤ A := by split at hleast <;> omega
    have : (least + r : ℤ) ≤ A := mod_cast this
    linarith

theorem units_of_testPoint (htest : testPoint p e j = true) :
    (n * decimalUnit p e : ℤ) = j * binaryUnit p e
      ∨ 5 * (j * binaryUnit p e : ℤ)
        < 2 ^ 54 * |(n * decimalUnit p e : ℤ) - j * binaryUnit p e| := by
  simp only [testPoint, decide_eq_true_eq] at htest
  have hA : 0 < decimalUnit p e := Nat.mul_pos (by positivity) (by positivity)
  generalize decimalUnit p e = A at htest hA ⊢
  generalize binaryUnit p e = B at htest ⊢
  have hsplit : (A * (j * B / A : ℕ) + (j * B % A : ℕ) : ℤ) = j * B :=
    mod_cast Nat.div_add_mod (j * B) A
  have hr := Nat.mod_lt (j * B) hA
  generalize j * B / A = t at hsplit
  generalize j * B % A = r at htest hsplit hr
  by_cases hsame : r = 0 ∧ n = t
  · obtain ⟨rfl, rfl⟩ := hsame
    exact .inl (by rw [← hsplit]; push_cast; ring)
  · right
    have htest' : 5 * (j * B : ℤ) < 2 ^ 54 * ((if r = 0 then A else min r (A - r) : ℕ) : ℤ) := by
      exact_mod_cast htest
    refine lt_of_lt_of_le htest' ?_
    rw [← hsplit]
    gcongr
    exact le_abs_sub_of_mod hr hsame

end grids

end Midpoint

namespace Single

open Midpoint

variable {x : Single} {m n : ℕ} {q e : ℤ}

/-- On a grid finer than the distance of the neighbours the ends are far
from the nearest decimal. -/
theorem apart_of_fine (h : x.Fields m q) (hp : x.Printed q n e) (he : (10 : ℚ) ^ e < 2 ^ q)
    (hlower : x.lowerEnd.value = x.toBinary.value - 2 ^ (q - 1)) :
    Apart (n * 10 ^ e) x.lowerEnd.value ∧ Apart (n * 10 ^ e) x.upperEnd.value := by
  have hupper : x.upperEnd.value = x.toBinary.value + 2 ^ (q - 1) := by
    rw [upperEnd_value h, value_toBinary h]
    ring
  have hnear := abs_le.mp (hp.nearest he hlower)
  obtain ⟨hgrid, hbelow⟩ := grid_bounds h.minExp h.maxExp
  have hten : (10 : ℚ) ^ e ≤ 10 ^ (gridExponent q - 1) := by
    have := he.trans_le hgrid
    rw [zpow_lt_zpow_iff_right₀ (by norm_num)] at this
    exact zpow_le_zpow_right₀ (by norm_num) (by omega)
  have hm : (m : ℚ) + 1 ≤ 2 ^ 24 := mod_cast h.lt
  have hpow : (0 : ℚ) < 2 ^ (q - 1) := by positivity
  have hsize : (m * 2 ^ (q - 1) : ℚ) ≤ (2 ^ 24 - 1) * 2 ^ (q - 1) := by
    gcongr
    linarith
  have hvalue := value_toBinary h
  rw [two_zpow_eq q] at hbelow
  constructor <;> right
  · refine lt_of_lt_of_le ?_ (mul_le_mul_of_nonneg_left (le_abs_self _) (by positivity))
    linarith
  · refine lt_of_lt_of_le ?_ (mul_le_mul_of_nonneg_left (neg_le_abs _) (by positivity))
    linarith

/-- Just above a power of two the lower end is near, and all grids are
multiples of one. -/
theorem apart_of_power (h : x.Fields (2 ^ 23) q) (hq : -149 < q)
    (hgrid : (2 : ℚ) ^ (q - 2) < 10 ^ (e + 1)) :
    Apart (n * 10 ^ e) x.lowerEnd.value ∧ Apart (n * 10 ^ e) x.upperEnd.value := by
  have htest := (tests h.minExp h.maxExp).2.2
  simp only [testPower, Bool.and_eq_true] at htest
  obtain ⟨hupper, hlower⟩ := htest
  have hle : gridExponent q - 2 ≤ e := by
    have hbelow := (grid_bounds h.minExp h.maxExp).2
    have hten : (10 : ℚ) ^ (gridExponent q - 2) < 10 ^ (e + 1) := by
      rw [show gridExponent q - 1 = gridExponent q - 2 + 1 by ring,
        zpow_add_one₀ (by norm_num), two_zpow_eq, two_zpow_sub_one] at hbelow
      have hpow : (0 : ℚ) < 2 ^ (q - 2) := by positivity
      linarith
    rw [zpow_lt_zpow_iff_right₀ (by norm_num)] at hten
    omega
  obtain ⟨k, hk⟩ := exists_mul_eq n hle
  rw [hk]
  constructor
  · have := apart_of_units (n := k) (units_of_testPoint hlower)
    rw [lowerEnd_value_of_power h hq]
    convert this using 2
    · norm_num
    · congr 1
      ring
  · have := apart_of_units (n := k) (units_of_testPoint hupper)
    rw [upperEnd_value h]
    convert this using 2
    norm_num

/-- The shortest decimal is one of the ends or apart from it. -/
theorem apart_of_printed (h : x.Fields m q) (hp : x.Printed q n e)
    (hexception : q = -107 → m ≠ 11420669 ∧ m ≠ 11420670) :
    Apart (n * 10 ^ e) x.lowerEnd.value ∧ Apart (n * 10 ^ e) x.upperEnd.value := by
  have hmin := h.minExp
  by_cases hpower : m = 2 ^ 23 ∧ -149 < q
  · obtain ⟨rfl, hq⟩ := hpower
    exact apart_of_power h hq hp.grid
  · have hlower := lowerEnd_value h fun hm => by omega
    have hupper := upperEnd_value h
    rcases lt_or_ge ((10 : ℚ) ^ e) (2 ^ q) with hfine | hcoarse
    · refine apart_of_fine h hp hfine ?_
      rw [hlower, value_toBinary h]
      ring
    · have hpos := h.pos
      have hlt := h.lt
      have hlow : ((2 * m - 1 : ℕ) : ℚ) = 2 * m - 1 := by
        push_cast [show 1 ≤ 2 * m by omega]
        ring
      have hhigh : ((2 * m + 1 : ℕ) : ℚ) = 2 * m + 1 := by push_cast; ring
      rw [hlower, hupper, ← hlow, ← hhigh]
      constructor
      · refine apart_of_coarse hmin h.maxExp (by omega) (by omega) (fun hq => ?_) hcoarse
        have := hexception hq
        omega
      · refine apart_of_coarse hmin h.maxExp (by omega) (by omega) (fun hq => ?_) hcoarse
        have := hexception hq
        omega

end Single

end ModelExport
