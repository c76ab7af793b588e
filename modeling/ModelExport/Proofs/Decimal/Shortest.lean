import ModelExport.Proofs.Decimal.Single

/-!
# Which decimal is the shortest

The search of `Single.shortest` ends at the coarsest grid of decimals that
has one among the reals that round to the number (`exists_candidate`). So
the grid is not much finer than the distance to the neighbours, and on a
grid that is finer than that distance the nearest decimal is taken.
-/

namespace ModelExport

/-! ## Decimals -/

namespace Decimal

theorem value_mk (n : ℕ) (e : ℤ) : (Decimal.mk n e).value = n * 10 ^ e := rfl

theorem strip_spec (bound : ℕ) {d : Decimal} (h : 0 < d.digits) :
    (d.strip bound).value = d.value ∧ 0 < (d.strip bound).digits
      ∧ (d.strip bound).digits ≤ d.digits ∧ d.exponent ≤ (d.strip bound).exponent := by
  induction bound generalizing d with
  | zero => exact ⟨rfl, h, le_rfl, le_rfl⟩
  | succ bound ih =>
      rw [strip]
      split
      · next hzero =>
          have hten : d.digits = d.digits / 10 * 10 := by omega
          obtain ⟨hvalue, hpos, hle, hexp⟩ := ih (d := ⟨d.digits / 10, d.exponent + 1⟩)
            (by simp only; omega)
          simp only at hle hexp
          refine ⟨?_, hpos, by omega, by omega⟩
          rw [hvalue, value, value, zpow_add_one₀ (by norm_num)]
          have : (d.digits : ℚ) = (d.digits / 10 : ℕ) * 10 := mod_cast hten
          rw [this]
          ring
      · exact ⟨rfl, h, le_rfl, le_rfl⟩

end Decimal

theorem findSome?_range {α : Type} {f : ℕ → Option α} {count : ℕ} {a : α}
    (h : (List.range count).findSome? f = some a) :
    ∃ n < count, f n = some a ∧ ∀ i < n, f i = none := by
  induction count with
  | zero => cases h
  | succ count ih =>
      rw [List.range_succ, List.findSome?_append] at h
      cases hfirst : (List.range count).findSome? f with
      | some b =>
          rw [hfirst] at h
          obtain rfl := Option.some.inj h
          obtain ⟨n, hn, hspec⟩ := ih hfirst
          exact ⟨n, by omega, hspec⟩
      | none =>
          rw [hfirst] at h
          rw [List.findSome?_eq_none_iff] at hfirst
          refine ⟨count, by omega, by simpa using h, fun i hi => hfirst i (List.mem_range.mpr hi)⟩

namespace Single

/-! ## The scale -/

theorem scaleFrom_spec {b : Binary} {bound : ℕ} {k : ℤ} (hlow : (10 : ℚ) ^ (k - 1) ≤ b.value)
    (hhigh : b.value < 10 ^ (k + bound)) :
    (10 : ℚ) ^ (scaleFrom b bound k - 1) ≤ b.value ∧ b.value < 10 ^ scaleFrom b bound k := by
  induction bound generalizing k with
  | zero => exact ⟨hlow, by simpa [scaleFrom] using hhigh⟩
  | succ bound ih =>
      have hone : (Decimal.mk 1 k).value = 10 ^ k := by simp [Decimal.value]
      rw [scaleFrom]
      split
      · next hgt =>
          rw [Decimal.compareBinary_gt, hone] at hgt
          exact ⟨hlow, hgt⟩
      · next hgt =>
          have hle : (10 : ℚ) ^ k ≤ b.value := by
            rw [← hone, ← not_lt, ← Decimal.compareBinary_gt]
            exact hgt
          refine ih (by simpa using hle) ?_
          convert hhigh using 2
          push_cast
          ring

section search

variable {x : Single} {m : ℕ} {q : ℤ}

theorem scale_spec (h : x.Fields m q) :
    (10 : ℚ) ^ (scale x.toBinary - 1) ≤ x.toBinary.value
      ∧ x.toBinary.value < 10 ^ scale x.toBinary := by
  have hm : (1 : ℚ) ≤ m := mod_cast h.pos
  have hm' : (m : ℚ) < 2 ^ 24 := mod_cast h.lt
  have hvalue : x.toBinary.value = m * 2 ^ q := by rw [h.toBinary]; rfl
  apply scaleFrom_spec
  · rw [hvalue]
    calc (10 : ℚ) ^ (-46 - 1 : ℤ) ≤ 1 * 2 ^ (-149 : ℤ) := by norm_num
      _ ≤ m * 2 ^ q := by
          gcongr
          · exact one_le_two
          · exact h.minExp
  · rw [hvalue]
    calc (m * 2 ^ q : ℚ) ≤ 2 ^ 24 * 2 ^ (104 : ℤ) := by
          gcongr
          · exact one_le_two
          · exact h.maxExp
      _ < 10 ^ (-46 + (86 : ℕ) : ℤ) := by norm_num

/-! ## Candidates -/

theorem lowerEnd_add_le (h : x.Fields m q) :
    x.lowerEnd.value + 2 ^ (q - 2) ≤ x.toBinary.value := by
  have hpow : (0 : ℚ) < 2 ^ (q - 2) := by positivity
  rw [value_toBinary h, two_zpow_sub_one]
  by_cases hpower : m = 2 ^ 23 ∧ -149 < q
  · obtain ⟨rfl, hq⟩ := hpower
    rw [lowerEnd_value_of_power h hq]
    push_cast
    linarith
  · have hmin := h.minExp
    rw [lowerEnd_value h fun hm => by omega, two_zpow_sub_one]
    linarith

theorem lt_upperEnd (h : x.Fields m q) : x.toBinary.value < x.upperEnd.value := by
  have hpow : (0 : ℚ) < 2 ^ (q - 1) := by positivity
  rw [value_toBinary h, upperEnd_value h]
  linarith

/-- The decimal of a grid below the number. -/
def below (x : Single) (e : ℤ) : ℕ :=
  x.toBinary.num * Nat.pow 10 (-e).toNat / (x.toBinary.den * Nat.pow 10 e.toNat)

theorem below_spec (x : Single) (e : ℤ) :
    (x.below e * 10 ^ e : ℚ) ≤ x.toBinary.value
      ∧ x.toBinary.value < (x.below e + 1) * 10 ^ e := by
  have hten : (0 : ℚ) < 10 ^ e := by positivity
  have hden : 0 < x.toBinary.den * Nat.pow 10 e.toNat :=
    Nat.mul_pos x.toBinary.den_pos (Nat.pow_pos (by decide))
  have hpos : (0 : ℚ) < (x.toBinary.den * Nat.pow 10 e.toNat : ℕ) := mod_cast hden
  have hscaled : ((x.toBinary.num * Nat.pow 10 (-e).toNat : ℕ) : ℚ)
      / (x.toBinary.den * Nat.pow 10 e.toNat : ℕ) = x.toBinary.value / 10 ^ e := by
    rw [← Binary.num_div_den, ← zpow_toNat (by norm_num : (10 : ℚ) ≠ 0)]
    push_cast [Nat.pow_eq]
    field_simp
  have hlt := (div_lt_one hpos).mpr
    (mod_cast Nat.mod_lt (x.toBinary.num * Nat.pow 10 (-e).toNat) hden :
      ((x.toBinary.num * Nat.pow 10 (-e).toNat % (x.toBinary.den * Nat.pow 10 e.toNat) : ℕ) : ℚ)
        < (x.toBinary.den * Nat.pow 10 e.toNat : ℕ))
  have hsplit := hscaled.symm.trans (div_eq_add hden)
  rw [← le_div_iff₀ hten, ← div_lt_iff₀ hten, hsplit, below]
  constructor
  · exact le_add_of_nonneg_right (by positivity)
  · linarith

/-- What is taken on a grid: of the two decimals that enclose the number one
that reads back, and of two such the nearer one. -/
theorem candidate?_spec {e : ℤ} {d : Decimal} (h : x.candidate? e = some d) :
    (d = ⟨x.below e, e⟩ ∧ x.Covers (x.below e * 10 ^ e)
        ∧ (x.Covers ((x.below e + 1) * 10 ^ e)
          → 2 * x.toBinary.value ≤ (2 * x.below e + 1) * 10 ^ e))
      ∨ (d = ⟨x.below e + 1, e⟩ ∧ x.Covers ((x.below e + 1) * 10 ^ e)
        ∧ (x.Covers (x.below e * 10 ^ e)
          → (2 * x.below e + 1) * 10 ^ e ≤ 2 * x.toBinary.value)) := by
  have hbelow := x.readsBack_iff ⟨x.below e, e⟩
  have habove := x.readsBack_iff ⟨x.below e + 1, e⟩
  have htwice : Binary.value ⟨x.toBinary.significand, x.toBinary.exponent + 1⟩
      = 2 * x.toBinary.value := by
    rw [Binary.value, Binary.value, zpow_add_one₀ two_ne_zero]
    ring
  have hmiddle := Decimal.value_mk (2 * x.below e + 1) e
  rw [Decimal.value_mk] at hbelow habove
  push_cast at habove hmiddle
  simp only [candidate?] at h
  rw [← below] at h
  cases hb : x.readsBack ⟨x.below e, e⟩ <;> cases ha : x.readsBack ⟨x.below e + 1, e⟩ <;>
    rw [hb, ha] at h <;> rw [hb] at hbelow <;> rw [ha] at habove
  · cases h
  · cases h
    exact .inr ⟨rfl, habove.mp rfl, fun hc => absurd (hbelow.mpr hc) (by decide)⟩
  · cases h
    exact .inl ⟨rfl, hbelow.mp rfl, fun hc => absurd (habove.mpr hc) (by decide)⟩
  · cases hside : (Decimal.mk (2 * x.below e + 1) e).compareBinary
      ⟨x.toBinary.significand, x.toBinary.exponent + 1⟩ with
    | lt =>
        have hlt := (Decimal.compareBinary_lt _ _).mp hside
        rw [hmiddle, htwice] at hlt
        rw [hside] at h
        cases h
        exact .inr ⟨rfl, habove.mp rfl, fun _ => hlt.le⟩
    | gt =>
        have hgt := (Decimal.compareBinary_gt _ _).mp hside
        rw [hmiddle, htwice] at hgt
        rw [hside] at h
        cases h
        exact .inl ⟨rfl, hbelow.mp rfl, fun _ => hgt.le⟩
    | eq =>
        have heq := (Decimal.compareBinary_eq _ _).mp hside
        rw [hmiddle, htwice] at heq
        rw [hside] at h
        cases h
        split
        · exact .inl ⟨rfl, hbelow.mp rfl, fun _ => heq.ge⟩
        · exact .inr ⟨rfl, habove.mp rfl, fun _ => heq.le⟩

theorem candidate?_ne_none {e : ℤ} (h : x.Covers (x.below e * 10 ^ e)) :
    x.candidate? e ≠ none := by
  have hb : x.readsBack ⟨x.below e, e⟩ = true := (x.readsBack_iff _).mpr h
  simp only [candidate?]
  rw [← below, hb]
  cases x.readsBack ⟨x.below e + 1, e⟩ with
  | false => nofun
  | true => cases (Decimal.mk (2 * x.below e + 1) e).compareBinary _ <;> nofun

/-- On a grid no coarser than a quarter of the last bit there is a candidate. -/
theorem candidate?_ne_none_of_le (h : x.Fields m q) {e : ℤ} (he : (10 : ℚ) ^ e ≤ 2 ^ (q - 2)) :
    x.candidate? e ≠ none := by
  obtain ⟨hle, hlt⟩ := x.below_spec e
  have hlower := lowerEnd_add_le h
  have hupper := lt_upperEnd h
  refine candidate?_ne_none ⟨.inl ?_, .inl (lt_of_le_of_lt hle hupper)⟩
  linarith

/-! ## The search -/

-- Stated of the function and not of its value at a number: to compare that
-- value with its definition the kernel would run the search.
theorem shortest_def : shortest = fun x =>
    match (List.range 9).findSome?
      (fun n : Nat => x.candidate? (scale x.toBinary - (n + 1))) with
    | some d => d.strip 9
    | none => ⟨x.toBinary.num * Nat.pow 10 (-x.toBinary.exponent).toNat / x.toBinary.den,
      min x.toBinary.exponent 0⟩ := by rfl

/-- Nine digits are enough. -/
theorem candidate?_nine_ne_none (h : x.Fields m q) {k : ℤ} (hk : scale x.toBinary = k) :
    x.candidate? (k - 9) ≠ none := by
  apply candidate?_ne_none_of_le h
  have hscale := (scale_spec h).1
  rw [hk] at hscale
  have hm : (m : ℚ) < 2 ^ 24 := mod_cast h.lt
  have hpow : (0 : ℚ) < 2 ^ (q - 2) := by positivity
  have hnine : (10 : ℚ) ^ (k - 9) * 10 ^ 8 = 10 ^ (k - 1) := by
    rw [← zpow_natCast, ← zpow_add₀ (by norm_num)]
    congr 1
    push_cast
    ring
  have hfew : x.toBinary.value ≤ 2 ^ 26 * 2 ^ (q - 2) := by
    have := mul_le_mul_of_nonneg_right hm.le hpow.le
    rw [value_toBinary h, two_zpow_sub_one]
    linarith
  linarith

/-- The search finds a candidate and ends on a grid that is not much
finer than the distance to the neighbours. -/
theorem exists_candidate (h : x.Fields m q) {k : ℤ} (hk : scale x.toBinary = k) :
    ∃ e d, x.candidate? e = some d ∧ x.shortest = d.strip 9
      ∧ k - 9 ≤ e ∧ e < k ∧ (2 : ℚ) ^ (q - 2) < 10 ^ (e + 1) := by
  obtain ⟨d, hfound⟩ : ∃ d, (List.range 9).findSome?
      (fun n : ℕ => x.candidate? (k - (n + 1))) = some d := by
    rw [← Option.ne_none_iff_exists']
    intro hnone
    rw [List.findSome?_eq_none_iff] at hnone
    refine candidate?_nine_ne_none h hk ?_
    have := hnone 8 (List.mem_range.mpr (by decide))
    rwa [show k - ((8 : ℕ) + 1) = k - 9 by omega] at this
  have hshortest : x.shortest = d.strip 9 := by
    rw [shortest_def]
    simp only [hk, hfound]
  obtain ⟨n, hn, hd, hbefore⟩ := findSome?_range hfound
  refine ⟨_, d, hd, hshortest, by omega, by omega, ?_⟩
  cases n with
  | zero =>
      have hm : (1 : ℚ) ≤ m := mod_cast h.pos
      have hpow : (0 : ℚ) < 2 ^ (q - 2) := by positivity
      have hfew : (2 : ℚ) ^ (q - 2) ≤ x.toBinary.value := by
        have := mul_le_mul_of_nonneg_right hm hpow.le
        rw [value_toBinary h, two_zpow_sub_one]
        linarith
      simp only [Nat.cast_zero, zero_add, sub_add_cancel]
      exact hfew.trans_lt (hk ▸ (scale_spec h).2)
  | succ n =>
      by_contra hle
      rw [not_lt] at hle
      refine candidate?_ne_none_of_le h hle ?_
      have := hbefore n (by omega)
      convert this using 2
      push_cast
      ring

/-- What is known of the shortest decimal: it is `n` times the weight
`10 ^ e` of its grid and lies among the reals that round to the number. -/
structure Printed (x : Single) (q : ℤ) (n : ℕ) (e : ℤ) : Prop where
  value : x.shortest.value = n * 10 ^ e
  covers : x.Covers (n * 10 ^ e)
  pos : 0 < x.shortest.digits
  lt : x.shortest.digits < 10 ^ 10
  minExp : -53 ≤ x.shortest.exponent
  maxExp : x.shortest.exponent ≤ 38
  grid : (2 : ℚ) ^ (q - 2) < 10 ^ (e + 1)
  nearest : (10 : ℚ) ^ e < 2 ^ q → x.lowerEnd.value = x.toBinary.value - 2 ^ (q - 1) →
    |n * 10 ^ e - x.toBinary.value| ≤ 10 ^ e / 2

theorem lowerEnd_pos (h : x.Fields m q) : 0 < x.lowerEnd.value := by
  have hm : (1 : ℚ) ≤ m := mod_cast h.pos
  refine lt_of_lt_of_le ?_ (le_lowerEnd h)
  exact mul_pos (by linarith) (by positivity)

/-- On a grid finer than the distance to the neighbours the nearest decimal is taken. -/
theorem candidate?_near (h : x.Fields m q) {e : ℤ} {d : Decimal} (hd : x.candidate? e = some d)
    (he : (10 : ℚ) ^ e < 2 ^ q) (hlower : x.lowerEnd.value = x.toBinary.value - 2 ^ (q - 1)) :
    |d.value - x.toBinary.value| ≤ 10 ^ e / 2 := by
  obtain ⟨hbelow, habove⟩ := x.below_spec e
  have hlt := lt_upperEnd h
  have hten : (0 : ℚ) < 10 ^ e := by positivity
  have hupper : x.upperEnd.value = x.toBinary.value + 2 ^ (q - 1) := by
    rw [upperEnd_value h, value_toBinary h]
    ring
  rw [two_zpow_eq] at he
  have hpow : (0 : ℚ) < 2 ^ (q - 1) := by positivity
  rcases candidate?_spec hd with ⟨rfl, -, hboth⟩ | ⟨rfl, -, hboth⟩
  · rw [Decimal.value_mk, abs_sub_comm, abs_of_nonneg (by linarith)]
    by_cases hc : x.Covers ((x.below e + 1) * 10 ^ e)
    · linarith [hboth hc]
    · have hfar : x.upperEnd.value ≤ (x.below e + 1) * 10 ^ e := by
        by_contra hnot
        exact hc ⟨.inl (by linarith), .inl (not_le.mp hnot)⟩
      linarith
  · rw [Decimal.value_mk]
    push_cast
    rw [abs_of_nonneg (by linarith)]
    by_cases hc : x.Covers (x.below e * 10 ^ e)
    · linarith [hboth hc]
    · have hfar : x.below e * 10 ^ e ≤ x.lowerEnd.value := by
        by_contra hnot
        exact hc ⟨.inl (not_le.mp hnot), .inl (lt_of_le_of_lt hbelow hlt)⟩
      linarith

theorem of_candidate? {e : ℤ} {d : Decimal} (hd : x.candidate? e = some d) :
    d.exponent = e ∧ d.digits ≤ x.below e + 1 ∧ x.Covers d.value := by
  rcases candidate?_spec hd with ⟨rfl, hcovers, -⟩ | ⟨rfl, hcovers, -⟩
  · exact ⟨rfl, by simp, hcovers⟩
  · exact ⟨rfl, le_rfl, by rw [Decimal.value_mk]; push_cast; exact hcovers⟩

/-! ### Sizes -/

theorem below_lt (h : x.Fields m q) {e : ℤ} (he : scale x.toBinary - 9 ≤ e) :
    x.below e < 10 ^ 9 := by
  have hten : (0 : ℚ) < 10 ^ e := by positivity
  have hlt : (x.below e : ℚ) * 10 ^ e < 10 ^ 9 * 10 ^ e :=
    calc (x.below e : ℚ) * 10 ^ e < 10 ^ scale x.toBinary :=
          lt_of_le_of_lt (x.below_spec e).1 (scale_spec h).2
      _ ≤ 10 ^ (9 + e) := zpow_le_zpow_right₀ (by norm_num) (by omega)
      _ = 10 ^ 9 * 10 ^ e := by rw [zpow_add₀ (by norm_num)]; rfl
  exact_mod_cast lt_of_mul_lt_mul_right hlt hten.le

theorem le_scale (h : x.Fields m q) : -44 ≤ scale x.toBinary := by
  have hm : (1 : ℚ) ≤ m := mod_cast h.pos
  have hleast : (10 : ℚ) ^ (-45 : ℤ) < 10 ^ scale x.toBinary :=
    calc (10 : ℚ) ^ (-45 : ℤ) < 1 * 2 ^ (-149 : ℤ) := by norm_num
      _ ≤ m * 2 ^ q := by
          gcongr
          · exact one_le_two
          · exact h.minExp
      _ = x.toBinary.value := by rw [h.toBinary]; rfl
      _ < 10 ^ scale x.toBinary := (scale_spec h).2
  rw [zpow_lt_zpow_iff_right₀ (by norm_num)] at hleast
  omega

theorem exponent_le (h : x.Fields m q) {d : Decimal} (hpos : 0 < d.digits)
    (hd : d.value ≤ x.upperEnd.value) : d.exponent ≤ 38 := by
  have hone : (1 : ℚ) ≤ d.digits := mod_cast hpos
  have hq := h.maxExp
  have hmost : (10 : ℚ) ^ d.exponent < 10 ^ (39 : ℤ) :=
    calc (10 : ℚ) ^ d.exponent ≤ d.digits * 10 ^ d.exponent :=
          le_mul_of_one_le_left (by positivity) hone
      _ = d.value := rfl
      _ ≤ x.upperEnd.value := hd
      _ < 2 ^ (q + 24) := upperEnd_lt h
      _ ≤ 2 ^ (128 : ℤ) := zpow_le_zpow_right₀ one_le_two (by omega)
      _ < 10 ^ (39 : ℤ) := by norm_num
  rw [zpow_lt_zpow_iff_right₀ (by norm_num)] at hmost
  omega

theorem exists_printed (h : x.Fields m q) : ∃ n e, x.Printed q n e := by
  obtain ⟨k, hk⟩ : ∃ k, scale x.toBinary = k := ⟨_, rfl⟩
  obtain ⟨e, d, hd, hshortest, hlow, hhigh, hgrid⟩ := exists_candidate h hk
  obtain ⟨hexp, hdigits, hcovers⟩ := of_candidate? hd
  have hvalue : d.value = d.digits * 10 ^ e := by rw [Decimal.value, hexp]
  have hpos : 0 < d.digits := by
    have := (lowerEnd_pos h).trans_le (le_of_covers hcovers).1
    rw [hvalue] at this
    exact_mod_cast (pos_iff_pos_of_mul_pos this).mpr (by positivity)
  have hfew := below_lt h (hk ▸ hlow)
  have hsmall := le_scale h
  -- what the stripped decimal has of the candidate
  obtain ⟨hstrip, hspos, hsle, hsexp⟩ := Decimal.strip_spec 9 hpos
  rw [← hshortest] at hstrip hspos hsle hsexp
  refine ⟨d.digits, e, hstrip.trans hvalue, hvalue ▸ hcovers, hspos, by omega, by omega,
    exponent_le h hspos (hstrip ▸ (le_of_covers hcovers).2), hgrid, ?_⟩
  intro hfine hlowerEnd
  rw [← hvalue]
  exact candidate?_near h hd hfine hlowerEnd

end search

end Single

end ModelExport
