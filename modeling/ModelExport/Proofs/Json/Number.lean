import ModelExport.Json.Number
import ModelExport.Proofs.Decimal.Rounding

/-!
# What a written decimal is read as

A decimal of few digits is written by `Numeral.ofDecimal` so that all its
digits fit the significand (`exists_significand`). Read as a number of 64
bits it is then rounded twice, once in the power of ten and once in the
product or quotient (`exists_double`). Neither rounding moves it when the
power is small and the decimal is a number of 64 bits.
-/

namespace ModelExport

/-! ## Digits -/

theorem length_digitsUp {bound n : ℕ} (hpos : 0 < n) (h : n < bound) :
    ∃ k, (digitsUp bound n).length = k + 1 ∧ 10 ^ k ≤ n ∧ n < 10 ^ (k + 1) := by
  induction bound generalizing n with
  | zero => omega
  | succ bound ih =>
      rw [digitsUp]
      split
      · next hn => exact ⟨0, rfl, hpos, hn⟩
      · next hn =>
          obtain ⟨k, hk, hlow, hhigh⟩ := ih (n := n / 10) (by omega) (by omega)
          refine ⟨k + 1, by rw [List.length_cons, hk], ?_, ?_⟩
          · rw [Nat.pow_succ]
            omega
          · rw [Nat.pow_succ]
            omega

theorem length_digits {n : ℕ} (h : 0 < n) :
    ∃ k, (digits n).length = k + 1 ∧ 10 ^ k ≤ n ∧ n < 10 ^ (k + 1) := by
  rw [digits, List.length_reverse]
  exact length_digitsUp h (Nat.lt_succ_self n)

/-- Digits taken in behind those of a number. -/
def appendDigits (n : ℕ) (ds : List Digit) : ℕ := ds.foldl (fun n d => 10 * n + d.val) n

theorem appendDigits_cons (n : ℕ) (d : Digit) (ds : List Digit) :
    appendDigits n (d :: ds) = appendDigits (10 * n + d.val) ds := rfl

theorem appendDigits_append_singleton (n : ℕ) (ds : List Digit) (d : Digit) :
    appendDigits n (ds ++ [d]) = 10 * appendDigits n ds + d.val := by
  simp [appendDigits]

theorem appendDigits_digits (n : ℕ) : appendDigits 0 (digits n) = n := ofDigits_digits n

theorem le_appendDigits (n : ℕ) (ds : List Digit) : n ≤ appendDigits n ds := by
  induction ds generalizing n with
  | nil => exact le_rfl
  | cons d ds ih =>
      have := ih (10 * n + d.val)
      rw [appendDigits_cons]
      omega

namespace Numeral

/-! ## The significand -/

namespace Significand

theorem pushWhole_eq {n : ℕ} {ds : List Digit} (h : appendDigits n ds < UInt64.size) :
    pushWhole n ds = ⟨appendDigits n ds, 0⟩ := by
  induction ds generalizing n with
  | nil => rfl
  | cons d ds ih =>
      rw [appendDigits_cons] at h ⊢
      have hfits : push? n d = some (10 * n + d.val) :=
        if_pos (lt_of_le_of_lt (le_appendDigits _ ds) h)
      rw [pushWhole, hfits]
      exact ih h

theorem pushFraction_eq {s : Significand} {ds : List Digit}
    (h : appendDigits s.value ds < UInt64.size) :
    s.pushFraction ds = ⟨appendDigits s.value ds, s.exponent - ds.length⟩ := by
  induction ds generalizing s with
  | nil => simp [pushFraction, appendDigits]
  | cons d ds ih =>
      rw [appendDigits_cons] at h ⊢
      have hfits : push? s.value d = some (10 * s.value + d.val) :=
        if_pos (lt_of_le_of_lt (le_appendDigits _ ds) h)
      rw [pushFraction, hfits]
      simp only
      rw [ih h, List.length_cons]
      congr 1
      push_cast
      omega

end Significand

theorem exists_lastDigits_succ (count n : ℕ) :
    ∃ d : Digit, d.val = n % 10
      ∧ lastDigits (count + 1) n = lastDigits count (n / 10) ++ [d] := ⟨_, rfl, rfl⟩

theorem length_lastDigits (count n : ℕ) : (lastDigits count n).length = count := by
  induction count generalizing n with
  | zero => rfl
  | succ count ih =>
      obtain ⟨d, -, hd⟩ := exists_lastDigits_succ count n
      rw [hd, List.length_append, ih, List.length_singleton]

theorem appendDigits_lastDigits (count n : ℕ) :
    appendDigits (n / 10 ^ count) (lastDigits count n) = n := by
  induction count generalizing n with
  | zero => exact Nat.div_one n
  | succ count ih =>
      obtain ⟨d, hval, hd⟩ := exists_lastDigits_succ count n
      have hsplit := ih (n / 10)
      rw [Nat.div_div_eq_div_mul, ← Nat.pow_succ'] at hsplit
      rw [hd, appendDigits_append_singleton, hsplit, hval]
      exact Nat.div_add_mod n 10

theorem significand_eq {n : Numeral} {m : ℕ} (hm : appendDigits n.whole n.fraction = m)
    (h : m < UInt64.size) :
    n.significand = ⟨m, -n.fraction.length + n.exponent.getD 0⟩ := by
  have hwhole : appendDigits 0 (digits n.whole) < UInt64.size := by
    rw [appendDigits_digits]
    exact lt_of_le_of_lt (le_appendDigits _ _) (hm ▸ h)
  rw [significand, Significand.pushWhole_eq hwhole, appendDigits_digits,
    Significand.pushFraction_eq (by rw [hm]; exact h), hm]
  simp

theorem fitsInteger_eq_false {n : Numeral} (h : n.fraction ≠ [] ∨ n.exponent ≠ none) :
    n.fitsInteger = false := by
  have hint : n.int? = none := by
    rw [int?, if_neg]
    rintro ⟨hfraction, hexponent⟩
    exact h.elim (· hfraction) (· hexponent)
  simp [fitsInteger, uint64?, int64?, hint]

/-- All digits of a decimal fit the significand, and the decimal is not
written as an integer. -/
theorem exists_significand (negative : Bool) {d : Decimal} (hpos : 0 < d.digits)
    (hlt : d.digits < 10 ^ 10) :
    (ofDecimal negative d).fitsInteger = false
      ∧ ∃ m e, (ofDecimal negative d).significand = ⟨m, e⟩ ∧ 0 < m ∧ m < 10 ^ 14
        ∧ (m * 10 ^ e : ℚ) = d.value ∧ (e = -1 ∨ e = d.exponent) := by
  obtain ⟨n, exponent⟩ := d
  simp only at hpos hlt
  obtain ⟨k, hk, -, hhigh⟩ := length_digits hpos
  have hfits : n < UInt64.size := lt_trans hlt (by decide)
  simp only [ofDecimal, hk]
  split
  · next hplain =>
      split
      · next hexp =>
          -- all digits stand in front of the point, a zero behind it
          have hwhole : n * 10 ^ exponent.toNat < 10 ^ 13 :=
            calc n * 10 ^ exponent.toNat < 10 ^ (k + 1) * 10 ^ exponent.toNat :=
                  Nat.mul_lt_mul_of_pos_right hhigh (by positivity)
              _ = 10 ^ (k + 1 + exponent.toNat) := (pow_add ..).symm
              _ ≤ 10 ^ 13 := Nat.pow_le_pow_right (by decide) (by omega)
          have hm : 10 * (n * 10 ^ exponent.toNat) < UInt64.size :=
            lt_trans (by omega : _ < 10 ^ 14) (by decide)
          refine ⟨fitsInteger_eq_false (.inl (by simp)), 10 * (n * 10 ^ exponent.toNat), -1,
            significand_eq (by rfl) hm, by positivity, by omega, ?_, .inl rfl⟩
          have hpow : (10 : ℚ) ^ exponent.toNat = 10 ^ exponent := by
            rw [← zpow_natCast, Int.toNat_of_nonneg hexp]
          rw [Decimal.value]
          push_cast
          rw [hpow, zpow_neg_one]
          field_simp
      · next hexp =>
          have hplaces : ((-exponent).toNat : ℤ) = -exponent := Int.toNat_of_nonneg (by omega)
          refine ⟨fitsInteger_eq_false (.inl ?_), n, exponent, ?_, hpos, by omega, rfl, .inr rfl⟩
          · intro hnil
            have := congrArg List.length hnil
            rw [length_lastDigits, List.length_nil] at this
            omega
          · rw [significand_eq (appendDigits_lastDigits _ _) hfits, length_lastDigits, hplaces]
            simp
  · refine ⟨fitsInteger_eq_false (.inr (by simp)), n, exponent, ?_, hpos, by omega, rfl, .inr rfl⟩
    rw [significand_eq (appendDigits_lastDigits _ _) hfits, length_lastDigits]
    simp only [Option.getD_some, Significand.mk.injEq, true_and]
    omega

/-! ## Reading as a number of 64 bits -/

/-- One rounding to 53 bits, far from both ends of the format. -/
theorem exists_double_round {num den : ℕ} {v : ℚ} (hden : 0 < den) (hv : (num / den : ℚ) = v)
    (hlow : 1 / 10 ^ 100 ≤ v) (hhigh : v ≤ 10 ^ 100) :
    ∃ y, BinaryFormat.double.round num den = some y ∧ |y.value - v| ≤ v / 2 ^ 53
      ∧ ∀ (k : ℕ) (t : ℤ), k < 2 ^ 53 → -1074 ≤ t → v = k * 2 ^ t → y.value = v := by
  have hten : (10 : ℚ) ^ 100 ≤ 2 ^ 400 := by
    rw [show 400 = 4 * 100 from rfl, pow_mul]
    gcongr
    norm_num
  have hmin : (2 : ℚ) ^ (BinaryFormat.double.minExp + BinaryFormat.double.precision - 1) ≤ v :=
    calc (2 : ℚ) ^ (-1022 : ℤ) ≤ 2 ^ (-400 : ℤ) := zpow_le_zpow_right₀ one_le_two (by decide)
      _ = 1 / 2 ^ 400 := by rw [zpow_neg, one_div]; rfl
      _ ≤ 1 / 10 ^ 100 := one_div_le_one_div_of_le (by positivity) hten
      _ ≤ v := hlow
  have hmax : v < 2 ^ (BinaryFormat.double.maxExp - 1) :=
    calc v ≤ 2 ^ 400 := hhigh.trans hten
      _ = 2 ^ (400 : ℤ) := (zpow_natCast 2 400).symm
      _ < 2 ^ (1023 : ℤ) := zpow_lt_zpow_right₀ one_lt_two (by decide)
  obtain ⟨y, hy, hnear⟩ := BinaryFormat.exists_round_near hden hv hmin hmax
  refine ⟨y, hy, hnear, ?_⟩
  intro k t hk ht hvk
  have hpos : 0 < k := by
    by_contra h
    rw [hvk, Nat.le_zero.mp (Nat.not_lt.mp h), Nat.cast_zero, zero_mul] at hlow
    exact absurd hlow (by norm_num)
  obtain ⟨y', hy', hexact⟩ := BinaryFormat.exists_round_exact hden (hv.trans hvk) hpos hk ht
    (by decide) (hv ▸ hmax)
  obtain rfl := Option.some.inj (hy.symm.trans hy')
  rw [hexact, hvk]

/-- A number of 64 bits for a power of ten; the small powers are exact. -/
structure IsPower (p : Binary) (k : ℕ) : Prop where
  near : |p.value - 10 ^ k| ≤ 10 ^ k / 2 ^ 53
  exact : k ≤ 22 → p.value = 10 ^ k

theorem IsPower.bounds {p : Binary} {k : ℕ} (hp : IsPower p k) (hk : k ≤ 60) :
    1 / 2 ≤ p.value ∧ p.value ≤ 2 * 10 ^ 60 := by
  have hone : (1 : ℚ) ≤ 10 ^ k := one_le_pow₀ (by norm_num)
  have hbound : (10 : ℚ) ^ k ≤ 10 ^ 60 := pow_le_pow_right₀ (by norm_num) hk
  have hnear := abs_le.mp hp.near
  constructor <;> linarith

theorem exists_powerOfTen {k : ℕ} (hk : k ≤ 60) : ∃ p, powerOfTen k = some p ∧ IsPower p k := by
  have hone : (1 : ℚ) ≤ 10 ^ k := one_le_pow₀ (by norm_num)
  have hbound : (10 : ℚ) ^ k ≤ 10 ^ 60 := pow_le_pow_right₀ (by norm_num) hk
  have hv : ((Nat.pow 10 k : ℕ) / (1 : ℕ) : ℚ) = 10 ^ k := by
    push_cast [Nat.pow_eq]
    ring
  obtain ⟨p, hp, hnear, hexact⟩ := exists_double_round Nat.one_pos hv
    (le_trans (by norm_num) hone) (hbound.trans (by norm_num))
  refine ⟨p, hp, hnear, fun hsmall => ?_⟩
  have hfive : 5 ^ k < 2 ^ 53 :=
    lt_of_le_of_lt (Nat.pow_le_pow_right (by decide) hsmall) (by decide)
  refine hexact (5 ^ k) k hfive (by omega) ?_
  push_cast
  rw [zpow_natCast, ← mul_pow]
  norm_num

/-- What two roundings in a row leave of a value. When the first one does
nothing, neither does the second if the value is one of the format. -/
structure TwiceRounded (y : Binary) (v : ℚ) (small : Prop) : Prop where
  near : |y.value - v| ≤ 9 / 2 ^ 55 * v
  exact : small → ∀ (k : ℕ) (t : ℤ), k < 2 ^ 53 → -1074 ≤ t → v = k * 2 ^ t → y.value = v

/-- Two roundings in a row move a number by little more than twice one rounding. -/
theorem abs_sub_le_of_two {a b y : ℚ} (hb : 0 ≤ b)
    (hfirst : |a - b| ≤ b / 2 ^ 53 ∨ |a - b| ≤ a / 2 ^ 53) (hsecond : |y - a| ≤ a / 2 ^ 53) :
    |y - b| ≤ 9 / 2 ^ 55 * b := by
  rw [abs_le] at hsecond ⊢
  rcases hfirst with h | h <;> rw [abs_le] at h <;> constructor <;> linarith

section scaling

variable {x p : Binary} {m k : ℕ}

theorem exists_mul (hx : x.value = m) (hpos : 0 < m) (hlt : m < 10 ^ 14) (hp : IsPower p k)
    (hk : k ≤ 60) :
    ∃ y, BinaryFormat.double.mul x p = some y ∧ TwiceRounded y (m * 10 ^ k) (k ≤ 22) := by
  have hone : (1 : ℚ) ≤ m := mod_cast hpos
  have hbound : (m : ℚ) ≤ 10 ^ 14 := mod_cast hlt.le
  obtain ⟨hlow, hhigh⟩ := hp.bounds hk
  have hppos : 0 < p.value := by linarith
  have hv : ((x.num * p.num : ℕ) / (x.den * p.den : ℕ) : ℚ) = m * p.value := by
    rw [← hx, ← x.num_div_den, ← p.num_div_den]
    push_cast
    rw [div_mul_div_comm]
  have hleast : 1 / 2 ≤ m * p.value :=
    calc (1 / 2 : ℚ) ≤ 1 * p.value := by linarith
      _ ≤ m * p.value := by gcongr
  have hmost : m * p.value ≤ 10 ^ 14 * (2 * 10 ^ 60) :=
    mul_le_mul hbound hhigh hppos.le (by positivity)
  obtain ⟨y, hy, hnear, hexact⟩ := exists_double_round
    (Nat.mul_pos x.den_pos p.den_pos) hv (by linarith) (by linarith)
  refine ⟨y, hy, ?_, fun hsmall => ?_⟩
  · refine abs_sub_le_of_two (by positivity) (.inl ?_) hnear
    rw [← mul_sub, abs_mul, abs_of_pos (show (0 : ℚ) < m by linarith), mul_div_assoc]
    gcongr
    exact hp.near
  · rw [← hp.exact hsmall]
    exact hexact

theorem exists_div (hx : x.value = m) (hpos : 0 < m) (hlt : m < 10 ^ 14) (hp : IsPower p k)
    (hk : k ≤ 60) :
    ∃ y, BinaryFormat.double.div x p = some y ∧ TwiceRounded y (m / 10 ^ k) (k ≤ 22) := by
  have hone : (1 : ℚ) ≤ m := mod_cast hpos
  have hbound : (m : ℚ) ≤ 10 ^ 14 := mod_cast hlt.le
  obtain ⟨hlow, hhigh⟩ := hp.bounds hk
  have hppos : 0 < p.value := by linarith
  have hquotient : 0 < m / p.value := by positivity
  have hv : ((x.num * p.den : ℕ) / (x.den * p.num : ℕ) : ℚ) = m / p.value := by
    rw [← hx, ← x.num_div_den, ← p.num_div_den]
    push_cast
    rw [div_div_div_eq]
  obtain ⟨y, hy, hnear, hexact⟩ := exists_double_round
    (Nat.mul_pos x.den_pos (Binary.num_pos hppos)) hv
    (by rw [le_div_iff₀ hppos]; linarith) (by rw [div_le_iff₀ hppos]; linarith)
  refine ⟨y, hy, ?_, fun hsmall => ?_⟩
  · refine abs_sub_le_of_two (by positivity) (.inr ?_) hnear
    have hmove : |(10 ^ k - p.value) / 10 ^ k| ≤ 1 / 2 ^ 53 := by
      have := hp.near
      rw [abs_div, abs_of_pos (show (0 : ℚ) < 10 ^ k by positivity), abs_sub_comm,
        div_le_iff₀ (by positivity)]
      linarith
    calc |m / p.value - m / 10 ^ k| = |(10 ^ k - p.value) / 10 ^ k| * (m / p.value) := by
          rw [← abs_of_pos hquotient, ← abs_mul, abs_of_pos hquotient]
          congr 1
          field_simp
      _ ≤ 1 / 2 ^ 53 * (m / p.value) := by gcongr
      _ = m / p.value / 2 ^ 53 := by ring
  · rw [← hp.exact hsmall]
    exact hexact

end scaling

/-- A number of few digits and a moderate exponent is rounded twice, in its
power of ten and in the product or quotient. -/
theorem exists_double {n : Numeral} {m : ℕ} {e : ℤ} (hsig : n.significand = ⟨m, e⟩)
    (hpos : 0 < m) (hlt : m < 10 ^ 14) (he : e.natAbs ≤ 60) :
    ∃ y, n.double? = some y ∧ TwiceRounded y (m * 10 ^ e) (e.natAbs ≤ 22) := by
  have hone : (1 : ℚ) ≤ m := mod_cast hpos
  have hbound : (m : ℚ) ≤ 10 ^ 14 := mod_cast hlt.le
  have hnat : ((m : ℕ) / (1 : ℕ) : ℚ) = m := by simp
  obtain ⟨x, hx, -, hexact⟩ := exists_double_round Nat.one_pos hnat
    (le_trans (by norm_num) hone) (hbound.trans (by norm_num))
  have hxm : x.value = m := hexact m 0 (by omega) (by decide) (by simp)
  obtain ⟨p, hp, hpower⟩ := exists_powerOfTen he
  have hdouble : n.double? = if 0 ≤ e then BinaryFormat.double.mul x p
      else BinaryFormat.double.div x p := by
    simp only [double?, hsig, hx, Option.bind_eq_bind, Option.bind_some]
    rw [if_neg hpos.ne', if_neg (by omega)]
    split
    · rw [show e.toNat = e.natAbs by omega, hp]
      rfl
    · rw [if_pos (by omega), show (-e).toNat = e.natAbs by omega, hp]
      rfl
  rw [hdouble]
  split
  · next hnonneg =>
      have hvalue : (10 : ℚ) ^ e = 10 ^ e.natAbs := by
        rw [← zpow_natCast, Int.natAbs_of_nonneg hnonneg]
      rw [hvalue]
      exact exists_mul hxm hpos hlt hpower he
  · next hneg =>
      have hvalue : (m * 10 ^ e : ℚ) = m / 10 ^ e.natAbs := by
        rw [show e = -(e.natAbs : ℤ) by omega, zpow_neg, zpow_natCast, Int.natAbs_neg,
          Int.natAbs_natCast, div_eq_mul_inv]
      rw [hvalue]
      exact exists_div hxm hpos hlt hpower he

end Numeral

end ModelExport
