/-!
# Lookups in lists of entries

What a lookup answers when an entry is put in front, when the entries of one key
are replaced, and in a list that is zipped together from its keys and its values.
-/

namespace ModelExport

universe u v

variable {κ : Type u} {α : Type v} [BEq κ] [LawfulBEq κ]

/-! ## An entry in front -/

section Front

variable [DecidableEq κ]

theorem lookup_cons_ite (key name : κ) (a : α) (l : List (κ × α)) :
    ((key, a) :: l).lookup name = if name = key then some a else l.lookup name := by
  rw [List.lookup_cons]
  by_cases h : name = key
  · rw [if_pos h, beq_iff_eq.mpr h]
  · rw [if_neg h, beq_eq_false_iff_ne.mpr h]

theorem lookup_cons_eq_none {key name : κ} {a : α} {l : List (κ × α)} :
    ((key, a) :: l).lookup name = none ↔ key ≠ name ∧ l.lookup name = none := by
  rw [lookup_cons_ite]
  by_cases h : name = key
  · simp [h]
  · simp [h, Ne.symm h]

theorem lookup_swap {first second : κ} (hne : first ≠ second) (a b : α) (l : List (κ × α))
    (name : κ) :
    ((first, a) :: (second, b) :: l).lookup name
      = ((second, b) :: (first, a) :: l).lookup name := by
  simp only [lookup_cons_ite]
  by_cases h : name = first
  · rw [if_pos h, if_neg (h ▸ hne), if_pos h]
  · rw [if_neg h, if_neg h]

/-! ## Replaced entries -/

theorem lookup_replace (key : κ) (value : α) (l : List (κ × α)) (name : κ) :
    (l.map fun e => if e.1 = key then (key, value) else e).lookup name
      = if name = key then (l.lookup key).map fun _ => value else l.lookup name := by
  induction l with
  | nil => exact (ite_self none).symm
  | cons e l ih =>
      obtain ⟨first, a⟩ := e
      rw [List.map_cons]
      by_cases hfirst : first = key
      · rw [if_pos hfirst, hfirst, lookup_cons_ite, lookup_cons_ite, lookup_cons_ite, ih,
          if_pos rfl]
        by_cases hname : name = key
        · rw [if_pos hname, if_pos hname]
          rfl
        · simp only [if_neg hname]
      · rw [if_neg hfirst, lookup_cons_ite, lookup_cons_ite, lookup_cons_ite, ih,
          if_neg (Ne.symm hfirst)]
        by_cases hname : name = first
        · rw [if_pos hname, if_neg (hname ▸ hfirst), if_pos hname]
        · rw [if_neg hname, if_neg hname]

end Front

/-! ## Keys with their values -/

theorem lookup_zip_of_not_mem {keys : List κ} {key : κ} (h : key ∉ keys) (values : List α) :
    (keys.zip values).lookup key = none := by
  rw [List.lookup_eq_none_iff]
  intro p hp
  exact bne_iff_ne.mpr fun he => h (he ▸ (List.of_mem_zip hp).1)

theorem lookup_zip_of_mem {keys : List κ} (hnodup : keys.Nodup) {values : List α} {p : κ × α}
    (hp : p ∈ keys.zip values) : (keys.zip values).lookup p.1 = some p.2 := by
  induction keys generalizing values with
  | nil => cases hp
  | cons k keys ih =>
      cases values with
      | nil => cases hp
      | cons a values =>
          rw [List.nodup_cons] at hnodup
          rw [List.zip_cons_cons] at hp ⊢
          rcases List.mem_cons.mp hp with rfl | hp
          · exact List.lookup_cons_self
          · have hne : p.1 ≠ k := fun he => hnodup.1 (he ▸ (List.of_mem_zip hp).1)
            rw [List.lookup_cons, beq_eq_false_iff_ne.mpr hne]
            exact ih hnodup.2 hp

end ModelExport
