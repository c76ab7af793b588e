/-!
# Tables in order of registration

A `Table` maps names to values and remembers the order in which the names
were first written. Writing a name that is present replaces its value and
moves nothing. No name occurs twice, which is a field of the structure, so
two tables with the same entries are equal.
-/

namespace ModelExport

universe u

/-- A map from names to values in the order in which the names were first written. -/
@[ext] structure Table (α : Type u) where
  entries : List (String × α) := []
  nodup : (entries.map (·.1)).Nodup := by simp

namespace Table

variable {α : Type u}

/-- The entries with the value of the name replaced, or the new entry at the end. -/
def write (name : String) (value : α) : List (String × α) → List (String × α)
  | [] => [(name, value)]
  | (n, v) :: rest => if n = name then (n, value) :: rest else (n, v) :: write name value rest

theorem map_fst_write (name : String) (value : α) (l : List (String × α)) :
    (write name value l).map (·.1)
      = if name ∈ l.map (·.1) then l.map (·.1) else l.map (·.1) ++ [name] := by
  induction l with
  | nil => simp [write]
  | cons e l ih =>
      obtain ⟨n, v⟩ := e
      by_cases h : n = name
      · simp [write, h]
      · by_cases hm : name ∈ l.map (·.1)
        · simp only [write, if_neg h, List.map_cons, ih, if_pos hm]
          rw [if_pos (List.mem_cons_of_mem _ hm)]
        · simp only [write, if_neg h, List.map_cons, ih, if_neg hm]
          rw [if_neg (by simp only [List.mem_cons, not_or]; exact ⟨fun he => h he.symm, hm⟩)]
          rfl

/-- Writes a value under a name. -/
def insert (t : Table α) (name : String) (value : α) : Table α where
  entries := write name value t.entries
  nodup := by
    rw [map_fst_write]
    split
    · exact t.nodup
    · next h =>
        rw [List.nodup_append]
        refine ⟨t.nodup, by simp, ?_⟩
        intro a ha b hb hab
        simp only [List.mem_singleton] at hb
        exact h (hb ▸ hab ▸ ha)

/-- The table that arises when the entries are written one by one. -/
def ofList (entries : List (String × α)) : Table α :=
  entries.foldl (fun t e => t.insert e.1 e.2) {}

def get? (t : Table α) (name : String) : Option α :=
  t.entries.lookup name

def size (t : Table α) : Nat := t.entries.length

def names (t : Table α) : List String := t.entries.map (·.1)

theorem names_insert (t : Table α) (name : String) (value : α) :
    (t.insert name value).names = if name ∈ t.names then t.names else t.names ++ [name] :=
  map_fst_write name value t.entries

theorem write_of_not_mem {name : String} {l : List (String × α)} (value : α)
    (h : name ∉ l.map (·.1)) : write name value l = l ++ [(name, value)] := by
  induction l with
  | nil => rfl
  | cons e l ih =>
      obtain ⟨n, v⟩ := e
      simp only [List.map_cons, List.mem_cons, not_or] at h
      rw [write, if_neg (fun he => h.1 he.symm), ih h.2]
      rfl

/-- Writing the entries of a table one by one gives the table back. -/
theorem ofList_entries (t : Table α) : ofList t.entries = t := by
  have key : ∀ (l : List (String × α)) (s : Table α),
      ((s.entries ++ l).map (·.1)).Nodup →
      (l.foldl (fun t e => t.insert e.1 e.2) s).entries = s.entries ++ l := by
    intro l
    induction l with
    | nil => intro s _; simp
    | cons e l ih =>
        intro s h
        have hnot : e.1 ∉ s.entries.map (·.1) := by
          intro hm
          rw [List.map_append, List.nodup_append] at h
          exact h.2.2 e.1 hm e.1 (by simp) rfl
        have hins : (s.insert e.1 e.2).entries = s.entries ++ [e] :=
          write_of_not_mem e.2 hnot
        rw [List.foldl_cons, ih, hins, List.append_assoc]
        · rfl
        · rw [hins, List.append_assoc]
          exact h
  apply Table.ext
  simpa [ofList] using key t.entries {} (by simpa using t.nodup)

end Table

end ModelExport
