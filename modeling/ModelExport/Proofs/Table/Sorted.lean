import Mathlib.Data.List.Nodup
import ModelExport.Table.Sorted

/-!
# Members of sorted tables

Writing an entry adds its key and no other one (`SortedTable.mem_keys_insert`),
so a table that was written entry by entry has the keys of the entries. Keys
ascend strictly, which leaves one table for each set of keys: a set of names is
no more than its members (`NameSet.eq_of_mem_iff`).
-/

namespace ModelExport

universe u v

namespace SortedTable

variable {κ : Type u} {α : Type v} [Ord κ] [Std.LawfulEqOrd κ]

theorem mem_keys_place {k key : κ} {value : α} {l : List (κ × α)} :
    k ∈ (place key value l).map (·.1) ↔ k = key ∨ k ∈ l.map (·.1) := by
  induction l with
  | nil => simp [place]
  | cons d l ih =>
      obtain ⟨first, v⟩ := d
      unfold place
      split
      · simp
      · next heq =>
          obtain rfl := Std.LawfulEqOrd.eq_of_compare heq
          simp
      · rw [List.map_cons, List.mem_cons, ih, List.map_cons, List.mem_cons]
        exact or_left_comm

omit [Std.LawfulEqOrd κ] in
theorem keys_ascending (t : SortedTable κ α) :
    t.keys.Pairwise (fun a b => compare a b = .lt) := List.pairwise_map.mpr t.ascending

theorem nodup_keys (t : SortedTable κ α) : t.keys.Nodup := by
  refine t.keys_ascending.imp fun {a b} hlt => ?_
  rintro rfl
  rw [Std.ReflOrd.compare_self] at hlt
  cases hlt

variable [Std.TransOrd κ]

@[simp] theorem mem_keys_insert {t : SortedTable κ α} {k key : κ} {value : α} :
    k ∈ (t.insert key value).keys ↔ k = key ∨ k ∈ t.keys := mem_keys_place

theorem mem_keys_foldl_insert {k : κ} (entries : List (κ × α)) (t : SortedTable κ α) :
    k ∈ (entries.foldl (fun t e => t.insert e.1 e.2) t).keys
      ↔ k ∈ t.keys ∨ k ∈ entries.map (·.1) := by
  induction entries generalizing t with
  | nil => simp
  | cons e entries ih =>
      rw [List.foldl_cons, ih, mem_keys_insert, List.map_cons, List.mem_cons, or_assoc]
      exact or_left_comm

@[simp] theorem mem_keys_ofList {k : κ} {entries : List (κ × α)} :
    k ∈ (ofList entries).keys ↔ k ∈ entries.map (·.1) := by
  rw [ofList, mem_keys_foldl_insert]
  exact or_iff_right List.not_mem_nil

end SortedTable

namespace NameSet

variable {s t : NameSet} {n : String}

@[simp] theorem mem_names_ofNames {l : List String} : n ∈ (ofNames l).names ↔ n ∈ l := by
  rw [names, ofNames, SortedTable.mem_keys_ofList, List.map_map]
  exact iff_of_eq (congrArg (n ∈ ·) l.map_id)

@[simp] theorem mem_names_union : n ∈ (s.union t).names ↔ n ∈ s.names ∨ n ∈ t.names := by
  have hfold : s.union t
      = (t.names.map (·, ())).foldl (fun acc e => acc.insert e.1 e.2) s := by
    rw [List.foldl_map]
    rfl
  rw [hfold, names, SortedTable.mem_keys_foldl_insert, List.map_map]
  exact iff_of_eq (congrArg (n ∈ s.names ∨ n ∈ ·) t.names.map_id)

/-- Two sets with the same members have them in the same order. -/
theorem eq_of_mem_iff (h : ∀ n, n ∈ s.names ↔ n ∈ t.names) : s = t := by
  have hperm : s.names.Perm t.names :=
    (List.perm_ext_iff_of_nodup s.nodup_keys t.nodup_keys).mpr h
  have hnames : s.names = t.names := by
    refine hperm.eq_of_pairwise ?_ s.keys_ascending t.keys_ascending
    intro a b _ _ hlt hgt
    rw [Std.OrientedCmp.gt_of_lt hlt] at hgt
    cases hgt
  apply SortedTable.ext
  exact List.map_injective_iff.mpr (fun _ _ h => Prod.ext h rfl) hnames

theorem union_assoc (s t u : NameSet) : (s.union t).union u = s.union (t.union u) :=
  eq_of_mem_iff fun n => by simp only [mem_names_union, or_assoc]

end NameSet

end ModelExport
