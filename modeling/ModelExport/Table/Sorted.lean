/-!
# Sorted tables

A `SortedTable` maps keys to values and keeps the keys strictly
ascending, which is a field of the structure: whatever the order in which
the entries were written, equal contents are equal tables. `NameSet` is
the table without values.
-/

namespace ModelExport

universe u v

/-- A map whose entries are in strictly ascending order of their keys. -/
@[ext] structure SortedTable (κ : Type u) (α : Type v) [Ord κ] where
  entries : List (κ × α) := []
  ascending : entries.Pairwise (fun a b => compare a.1 b.1 = .lt) := by simp

namespace SortedTable

variable {κ : Type u} {α : Type v} [Ord κ]

/-- Writes an entry at its place among ascending ones. -/
def place (key : κ) (value : α) : List (κ × α) → List (κ × α)
  | [] => [(key, value)]
  | (k, v) :: rest =>
      match compare key k with
      | .lt => (key, value) :: (k, v) :: rest
      | .eq => (key, value) :: rest
      | .gt => (k, v) :: place key value rest

theorem mem_place {key : κ} {value : α} {l : List (κ × α)} {e : κ × α}
    (h : e ∈ place key value l) : e = (key, value) ∨ e ∈ l := by
  induction l with
  | nil => simpa [place] using h
  | cons d l ih =>
      obtain ⟨k, v⟩ := d
      unfold place at h
      split at h
      · simpa using h
      · simp only [List.mem_cons] at h ⊢
        rcases h with h | h
        · exact Or.inl h
        · exact Or.inr (Or.inr h)
      · simp only [List.mem_cons] at h ⊢
        rcases h with h | h
        · exact Or.inr (Or.inl h)
        · rcases ih h with h | h
          · exact Or.inl h
          · exact Or.inr (Or.inr h)

variable [Std.TransOrd κ] [Std.LawfulEqOrd κ]

theorem pairwise_place (key : κ) (value : α) {l : List (κ × α)}
    (h : l.Pairwise (fun a b => compare a.1 b.1 = .lt)) :
    (place key value l).Pairwise (fun a b => compare a.1 b.1 = .lt) := by
  induction l with
  | nil => simp [place]
  | cons d l ih =>
      obtain ⟨k, v⟩ := d
      rw [List.pairwise_cons] at h
      unfold place
      split
      · next hlt =>
          rw [List.pairwise_cons]
          refine ⟨?_, List.pairwise_cons.mpr h⟩
          intro e he
          rcases List.mem_cons.mp he with rfl | he
          · exact hlt
          · exact Std.TransCmp.lt_trans hlt (h.1 e he)
      · next heq =>
          rw [Std.LawfulEqOrd.compare_eq_iff_eq] at heq
          subst heq
          exact List.pairwise_cons.mpr h
      · next hgt =>
          rw [List.pairwise_cons]
          refine ⟨?_, ih h.2⟩
          intro e he
          rcases mem_place he with rfl | he
          · exact Std.OrientedCmp.lt_of_gt hgt
          · exact h.1 e he

/-- Writes a value under a key. -/
def insert (t : SortedTable κ α) (key : κ) (value : α) : SortedTable κ α where
  entries := place key value t.entries
  ascending := pairwise_place key value t.ascending

/-- The table that arises when the entries are written one by one. -/
def ofList (entries : List (κ × α)) : SortedTable κ α :=
  entries.foldl (fun t e => t.insert e.1 e.2) {}

omit [Std.TransOrd κ] [Std.LawfulEqOrd κ] in
theorem place_of_gt {key : κ} {l : List (κ × α)} (value : α)
    (h : ∀ e ∈ l, compare key e.1 = .gt) : place key value l = l ++ [(key, value)] := by
  induction l with
  | nil => rfl
  | cons d l ih =>
      obtain ⟨k, v⟩ := d
      have hk := h (k, v) (by simp)
      simp only at hk
      rw [place, hk]
      simp [ih (fun e he => h e (List.mem_cons_of_mem _ he))]

/-- Writing the entries of a table one by one gives the table back. -/
theorem ofList_entries (t : SortedTable κ α) : ofList t.entries = t := by
  have key : ∀ (l : List (κ × α)) (s : SortedTable κ α),
      (s.entries ++ l).Pairwise (fun a b => compare a.1 b.1 = .lt) →
      (l.foldl (fun t e => t.insert e.1 e.2) s).entries = s.entries ++ l := by
    intro l
    induction l with
    | nil => intro s _; simp
    | cons e l ih =>
        intro s h
        have hins : (s.insert e.1 e.2).entries = s.entries ++ [e] := by
          refine place_of_gt e.2 (fun d hd => ?_)
          rw [List.pairwise_append] at h
          exact Std.OrientedCmp.gt_of_lt (h.2.2 d hd e (by simp))
        rw [List.foldl_cons, ih, hins, List.append_assoc]
        · rfl
        · rw [hins, List.append_assoc]
          exact h
  apply SortedTable.ext
  simpa [ofList] using key t.entries {} (by simpa using t.ascending)

def get? (t : SortedTable κ α) (key : κ) : Option α :=
  (t.entries.find? (fun e => compare key e.1 == .eq)).map (·.2)

def size (t : SortedTable κ α) : Nat := t.entries.length

def keys (t : SortedTable κ α) : List κ := t.entries.map (·.1)

end SortedTable

/-! ## Sets of names -/

/-- A set of names, in ascending order of their characters. -/
abbrev NameSet := SortedTable String Unit

namespace NameSet

def ofNames (names : List String) : NameSet :=
  SortedTable.ofList (names.map (·, ()))

def names (s : NameSet) : List String := s.keys

def contains (s : NameSet) (name : String) : Bool := s.names.contains name

/-- All names of both sets. -/
def union (s t : NameSet) : NameSet :=
  t.names.foldl (fun acc n => acc.insert n ()) s

end NameSet

end ModelExport
