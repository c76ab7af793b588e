import Mathlib.Algebra.BigOperators.Ring.List
import Mathlib.Algebra.Ring.Nat
import Mathlib.Data.List.TakeWhile
import ModelExport.Column.Type
import ModelExport.Value.Basic

/-!
# How many cells there are

The count of cells is multiplied up from the left and given up at the first
partial product that leaves 64 bits. Partial products only grow up to the
first zero among the extents and are zero from there on. So the count is given
up exactly when the extents in front of the first zero (`leading`) are too many,
and otherwise it is the product of all extents (`cellCount?_eq_some_iff`).

A column whose count is given up has no items, and neither has one with a zero
extent, so the number of items is the product or zero, in whatever order the
extents stand (`ColumnType.valueCount_product_or_zero`). A tensor tells the two
apart: extents that describe no cell at all are refused when those in front of
the zero are too many (`Tensor.ofData_accepts`).
-/

namespace ModelExport

/-! ## Products of extents -/

/-- The number of cells that the extents describe, however large it is. -/
def cells (dims : List UInt64) : Nat := (dims.map UInt64.toNat).prod

/-- The extents in front of the first zero. -/
def leading (dims : List UInt64) : List UInt64 := dims.takeWhile (· ≠ 0)

@[simp] theorem cells_nil : cells [] = 1 := rfl

@[simp] theorem cells_cons (d : UInt64) (dims : List UInt64) :
    cells (d :: dims) = d.toNat * cells dims := by
  simp [cells]

@[simp] theorem leading_nil : leading [] = [] := rfl

@[simp] theorem leading_zero_cons (dims : List UInt64) : leading (0 :: dims) = [] := rfl

theorem leading_cons {d : UInt64} (hd : d ≠ 0) (dims : List UInt64) :
    leading (d :: dims) = d :: leading dims :=
  List.takeWhile_cons_of_pos (decide_eq_true hd)

theorem leading_eq_self {dims : List UInt64} (h : 0 ∉ dims) : leading dims = dims := by
  refine List.takeWhile_eq_self_iff.mpr fun d hd => decide_eq_true ?_
  rintro rfl
  exact h hd

theorem zero_not_mem_leading (dims : List UInt64) : 0 ∉ leading dims := by
  intro h
  have hne := List.mem_takeWhile_imp (p := fun d : UInt64 => decide (d ≠ 0)) h
  exact of_decide_eq_true hne rfl

theorem cells_eq_zero_iff {dims : List UInt64} : cells dims = 0 ↔ 0 ∈ dims := by
  rw [cells, List.prod_eq_zero_iff, List.mem_map]
  constructor
  · rintro ⟨d, hd, hzero⟩
    rwa [UInt64.toNat_inj.mp (hzero.trans UInt64.toNat_zero.symm)] at hd
  · exact fun h => ⟨0, h, UInt64.toNat_zero⟩

theorem cells_leading_pos (dims : List UInt64) : 0 < cells (leading dims) :=
  Nat.pos_of_ne_zero fun h => zero_not_mem_leading dims (cells_eq_zero_iff.mp h)

theorem cells_eq_zero_or_leading (dims : List UInt64) :
    cells dims = 0 ∨ leading dims = dims := by
  by_cases h : 0 ∈ dims
  · exact Or.inl (cells_eq_zero_iff.mpr h)
  · exact Or.inr (leading_eq_self h)

theorem cells_perm {dims dims' : List UInt64} (h : dims.Perm dims') : cells dims = cells dims' :=
  (h.map UInt64.toNat).prod_eq

/-! ## The count -/

/-- One more extent is either zero, and then nothing behind it matters, or a leading one. -/
theorem mul_cells_leading_lt_iff (a d : UInt64) (dims : List UInt64) :
    a.toNat * d.toNat * cells (leading dims) < UInt64.size
      ↔ a.toNat * cells (leading (d :: dims)) < UInt64.size := by
  by_cases hd : d = 0
  · subst hd
    have ha : a.toNat < UInt64.size := a.toNat_lt_size
    simpa [UInt64.size] using ha
  · rw [leading_cons hd, cells_cons, Nat.mul_assoc]

/-- From any count of cells on, the extents up to the first zero decide. -/
theorem foldlM_mulExtent?_eq_some_iff {dims : List UInt64} {a n : UInt64} :
    dims.foldlM mulExtent? a = some n
      ↔ n.toNat = a.toNat * cells dims ∧ a.toNat * cells (leading dims) < UInt64.size := by
  induction dims generalizing a with
  | nil =>
      have ha : a.toNat < UInt64.size := a.toNat_lt_size
      simp [← UInt64.toNat_inj, eq_comm, ha]
  | cons d dims ih =>
      have hsplit : (d :: dims).foldlM mulExtent? a = some n
          ↔ ∃ b, b.toNat = a.toNat * d.toNat ∧ dims.foldlM mulExtent? b = some n := by
        rw [List.foldlM_cons]
        exact Option.bind_eq_some_iff.trans (by simp only [mulExtent?_eq_some])
      rw [hsplit, cells_cons, ← Nat.mul_assoc, ← mul_cells_leading_lt_iff]
      constructor
      · rintro ⟨b, hb, hn⟩
        rw [← hb]
        exact ih.mp hn
      · rintro ⟨hcells, hlt⟩
        have hle := Nat.le_mul_of_pos_right (a.toNat * d.toNat) (cells_leading_pos dims)
        have hb := UInt64.toNat_ofNat_of_lt (Nat.lt_of_le_of_lt hle hlt)
        refine ⟨_, hb, ih.mpr ?_⟩
        rw [hb]
        exact ⟨hcells, hlt⟩

theorem cellCount?_eq_some_iff {dims : List UInt64} {n : UInt64} :
    cellCount? dims = some n ↔ n.toNat = cells dims ∧ cells (leading dims) < UInt64.size := by
  refine foldlM_mulExtent?_eq_some_iff.trans ?_
  rw [UInt64.toNat_one, Nat.one_mul, Nat.one_mul]

/-- The count is given up for too many leading extents, and for no other reason. -/
theorem cellCount?_eq_none_iff {dims : List UInt64} :
    cellCount? dims = none ↔ UInt64.size ≤ cells (leading dims) := by
  rw [Option.eq_none_iff_forall_ne_some, ← Nat.not_lt]
  constructor
  · intro hnone hlt
    have hcells : cells dims < UInt64.size := by
      rcases cells_eq_zero_or_leading dims with hzero | hself
      · rw [hzero]
        decide
      · rwa [hself] at hlt
    have hcount := UInt64.toNat_ofNat_of_lt hcells
    exact hnone _ (cellCount?_eq_some_iff.mpr ⟨hcount, hlt⟩)
  · intro hsize n hn
    exact hsize (cellCount?_eq_some_iff.mp hn).2

namespace ColumnType

/-! ## Items of a column -/

theorem toNat_valueCount_vector (item : Item) {dims : List UInt64} (h : dims ≠ []) :
    (vector item dims).valueCount.toNat = if cells dims < UInt64.size then cells dims else 0 := by
  rw [valueCount.eq_3 item dims h]
  cases hcount : cellCount? dims with
  | some n =>
      have hn := (cellCount?_eq_some_iff.mp hcount).1
      have hlt : cells dims < UInt64.size := hn ▸ n.toNat_lt_size
      rw [if_pos hlt, ← hn]
      rfl
  | none =>
      have hmany := cellCount?_eq_none_iff.mp hcount
      rcases cells_eq_zero_or_leading dims with hzero | hself
      · rw [hzero]
        rfl
      · rw [hself] at hmany
        rw [if_neg (Nat.not_lt.mpr hmany)]
        rfl

/-- Items that there are stand under extents that multiply to their number, none of them zero. -/
theorem cells_of_valueCount_ne_zero {item : Item} {dims : List UInt64}
    (h : (vector item dims).valueCount ≠ 0) :
    dims ≠ [] ∧ 0 ∉ dims ∧ cells dims = (vector item dims).valueCount.toNat := by
  have hne : dims ≠ [] := by
    rintro rfl
    exact h rfl
  have hpos : (vector item dims).valueCount.toNat ≠ 0 := fun hzero => h (UInt64.toNat_inj.mp hzero)
  have hcount := toNat_valueCount_vector item hne
  by_cases hlt : cells dims < UInt64.size
  · rw [if_pos hlt] at hcount
    exact ⟨hne, fun hzero => hpos (hcount.trans (cells_eq_zero_iff.mpr hzero)), hcount.symm⟩
  · exact absurd (hcount.trans (if_neg hlt)) hpos

/-- The number of items in a row is one for a scalar, zero for a vector without extents, and
for any other the product of the extents if 64 bits can hold it, else zero. The order of the
extents makes no difference to it. -/
theorem valueCount_product_or_zero :
    (∀ t : ColumnType, t.valueCount.toNat = match t with
      | .scalar _ => 1
      | .vector _ [] => 0
      | .vector _ dims => if cells dims < UInt64.size then cells dims else 0)
    ∧ ∀ (item : Item) (dims dims' : List UInt64), dims.Perm dims' →
        (vector item dims).valueCount = (vector item dims').valueCount := by
  refine ⟨fun t => ?_, fun item dims dims' h => ?_⟩
  · match t with
    | .scalar _ => rfl
    | .vector _ [] => rfl
    | .vector item (d :: dims) => exact toNat_valueCount_vector item (List.cons_ne_nil d dims)
  · by_cases hnil : dims = []
    · subst hnil
      rw [h.nil_eq]
    · have hnil' : dims' ≠ [] := fun heq => hnil (h.trans (.of_eq heq)).eq_nil
      apply UInt64.toNat_inj.mp
      rw [toNat_valueCount_vector item hnil, toNat_valueCount_vector item hnil', cells_perm h]

/-- A zero extent in front of too many others or behind them. -/
theorem valueCount_product_or_zero_reordered :
    let dims : List UInt64 := [9223372036854775808, 2, 0]
    let dims' : List UInt64 := [0, 9223372036854775808, 2]
    dims.Perm dims' ∧ cellCount? dims = none ∧ cellCount? dims' = some 0
      ∧ (vectorOf .float32 dims).valueCount = (vectorOf .float32 dims').valueCount := by
  intro dims dims'
  have hperm : dims.Perm dims' := by decide
  exact ⟨hperm, by decide, by decide, valueCount_product_or_zero.2 (.primitive .float32) _ _ hperm⟩

end ColumnType

namespace Tensor

/-! ## Elements of a tensor -/

variable {dims : List UInt64} {data : TensorData}

theorem ofData_eq_ok_iff {t : Tensor} :
    ofData dims data = .ok t
      ↔ t = { dims, data } ∧ dims ≠ [] ∧ cells dims = data.size
        ∧ cells (leading dims) < UInt64.size := by
  unfold ofData
  cases hcount : cellCount? dims with
  | none =>
      have hmany := cellCount?_eq_none_iff.mp hcount
      constructor
      · exact fun h => nomatch h
      · rintro ⟨-, -, -, hlt⟩
        exact absurd hlt (Nat.not_lt.mpr hmany)
  | some n =>
      obtain ⟨hn, hlt⟩ := cellCount?_eq_some_iff.mp hcount
      simp only [hn, List.isEmpty_iff]
      split
      · next hmisfit =>
          constructor
          · exact fun h => nomatch h
          · rintro ⟨-, hne, hcells, -⟩
            exact (hmisfit.elim hne fun h => h hcells).elim
      · next hfit =>
          obtain ⟨hne, hcells⟩ := not_or.mp hfit
          constructor
          · exact fun h => ⟨(Except.ok.inj h).symm, hne, not_not.mp hcells, hlt⟩
          · rintro ⟨rfl, -⟩
            rfl

theorem exists_ofData_iff :
    (∃ t, ofData dims data = .ok t)
      ↔ dims ≠ [] ∧ cells dims = data.size ∧ cells (leading dims) < UInt64.size := by
  simp [ofData_eq_ok_iff]

/-- Elements that there are leave no room for too many leading extents. -/
theorem cells_leading_lt_size (h : cells dims = data.size) (hdata : data.size < UInt64.size)
    (hsome : ¬ (data.size = 0 ∧ 0 ∈ dims)) : cells (leading dims) < UInt64.size := by
  rcases cells_eq_zero_or_leading dims with hzero | hself
  · exact absurd ⟨h ▸ hzero, cells_eq_zero_iff.mp hzero⟩ hsome
  · rwa [hself, h]

/-- A tensor is made when there is an extent, the extents multiply to the number of elements and
those in front of the first zero fit 64 bits. So whether the extents fit the elements decides
about it, except for no elements under a zero extent: there the extents in front of the zero
decide. -/
theorem ofData_accepts (dims : List UInt64) (data : TensorData)
    (hdata : data.size < UInt64.size) :
    let made := ∃ t, ofData dims data = .ok t
    let consistent := dims ≠ [] ∧ cells dims = data.size
    (made ↔ consistent ∧ cells (leading dims) < UInt64.size)
      ∧ ((made ↔ consistent)
          ↔ (data.size = 0 ∧ 0 ∈ dims → cells (leading dims) < UInt64.size)) := by
  intro made consistent
  have hmade : made ↔ consistent ∧ cells (leading dims) < UInt64.size :=
    exists_ofData_iff.trans and_assoc.symm
  refine ⟨hmade, fun h hempty => ?_, fun h => ?_⟩
  · obtain ⟨hzero, hmem⟩ := hempty
    have hconsistent : consistent :=
      ⟨List.ne_nil_of_mem hmem, (cells_eq_zero_iff.mpr hmem).trans hzero.symm⟩
    exact (hmade.mp (h.mpr hconsistent)).2
  · refine ⟨fun hm => (hmade.mp hm).1, fun hc => hmade.mpr ⟨hc, ?_⟩⟩
    by_cases hempty : data.size = 0 ∧ 0 ∈ dims
    · exact h hempty
    · exact cells_leading_lt_size hc.2 hdata hempty

theorem ofData_accepts_zero_in_front :
    (TensorData.strings []).size < UInt64.size
      ∧ ∃ t, ofData [0, 9223372036854775808, 2] (.strings []) = .ok t := by
  refine ⟨by decide, ?_⟩
  exact (ofData_accepts [0, 9223372036854775808, 2] (.strings []) (by decide)).1.mpr (by decide)

/-- No elements under extents that describe no cell: refused when the zero stands behind two
extents that are too many together, and taken when it stands in front of them. -/
theorem empty_refused_behind_overflow :
    let dims : List UInt64 := [9223372036854775808, 2, 0]
    let dims' : List UInt64 := [0, 9223372036854775808, 2]
    let data : TensorData := .int64s []
    dims ≠ [] ∧ cells dims = data.size ∧ data.size < UInt64.size
      ∧ ofData dims data = .error (.extentOverflow dims)
      ∧ dims.Perm dims' ∧ ofData dims' data = .ok { dims := dims', data } := by
  decide

end Tensor

end ModelExport
