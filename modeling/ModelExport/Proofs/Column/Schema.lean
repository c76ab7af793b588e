import Mathlib.Data.List.Induction
import Mathlib.Data.List.Nodup
import ModelExport.Column.Schema

/-!
# Schemas that were built by appending

Appending hides earlier namesakes. So in a schema that was built in no
other way every column with a later namesake is hidden (`Schema.Settled`),
and its visible columns have different names. Appended to another schema,
a settled one keeps its visible columns, at the end, and hides what they
take the names of (`Schema.Settled.visible_extend`).
-/

namespace ModelExport

namespace Column

@[simp] theorem name_hideIf (name : String) (c : Column) : (c.hideIf name).name = c.name := by
  unfold hideIf
  split <;> rfl

@[simp] theorem hidden_hideIf_iff (name : String) (c : Column) :
    (c.hideIf name).hidden = true ↔ c.name = name ∨ c.hidden = true := by
  unfold hideIf
  split <;> simp [*]

end Column

namespace Schema

/-- Built from nothing by appending columns and schemas. -/
inductive Appended : Schema → Prop where
  | empty : Appended {}
  | push {s : Schema} (h : s.Appended) (c : Column) : Appended (s.push c)
  | withColumn {s : Schema} (h : s.Appended) (name : String) (type : ColumnType) :
      Appended (s.withColumn name type)
  | extend {s : Schema} (h : s.Appended) (t : Schema) : Appended (s.extend t)

/-- Columns with later namesakes are hidden. -/
def Settled (s : Schema) : Prop :=
  s.columns.Pairwise fun a b => a.name = b.name → a.hidden = true

/-! ## Appending settles -/

theorem settled_empty : Settled {} := List.Pairwise.nil

theorem Settled.push {s : Schema} (h : s.Settled) (c : Column) : (s.push c).Settled := by
  refine List.pairwise_append.mpr ⟨?_, List.pairwise_singleton _ _, ?_⟩
  · refine List.pairwise_map.mpr (h.imp ?_)
    intro a b hab hname
    rw [Column.name_hideIf, Column.name_hideIf] at hname
    exact (Column.hidden_hideIf_iff _ a).mpr (Or.inr (hab hname))
  · intro a ha b hb hname
    obtain rfl := List.mem_singleton.mp hb
    obtain ⟨d, -, rfl⟩ := List.mem_map.mp ha
    rw [Column.name_hideIf] at hname
    exact (Column.hidden_hideIf_iff _ d).mpr (Or.inl hname)

theorem Settled.extend {s : Schema} (h : s.Settled) (t : Schema) : (s.extend t).Settled := by
  unfold Schema.extend
  induction t.columns generalizing s with
  | nil => exact h
  | cons c columns ih => exact ih (h.push c)

theorem Appended.settled {s : Schema} (h : s.Appended) : s.Settled := by
  induction h with
  | empty => exact settled_empty
  | push _ c ih => exact ih.push c
  | withColumn _ name type ih => exact ih.push _
  | extend _ t ih => exact ih.extend t

/-! ## What a settled schema shows -/

theorem mem_visible {s : Schema} {c : Column} :
    c ∈ s.visible ↔ c ∈ s.columns ∧ c.hidden = false := by
  simp [visible, List.mem_filter]

theorem Settled.nodup_visible {s : Schema} (h : s.Settled) : (s.visible.map (·.name)).Nodup := by
  refine List.pairwise_map.mpr (List.Pairwise.imp_of_mem ?_ (List.Pairwise.filter _ h))
  intro a b ha _ hab hname
  have hvisible := (mem_visible.mp ha).2
  rw [hab hname] at hvisible
  cases hvisible

/-- The last column of a settled schema bears no name that is visible before it. -/
theorem Settled.of_concat {columns : List Column} {c : Column}
    (h : Settled ⟨columns ++ [c]⟩) :
    Settled ⟨columns⟩ ∧ ∀ d ∈ visible ⟨columns⟩, d.name ≠ c.name := by
  obtain ⟨hbefore, -, hlast⟩ := List.pairwise_append.mp h
  refine ⟨hbefore, ?_⟩
  intro d hd hname
  obtain ⟨hmem, hvisible⟩ := mem_visible.mp hd
  rw [hlast d hmem c (List.mem_singleton_self c) hname] at hvisible
  cases hvisible

theorem visible_concat (columns : List Column) (c : Column) :
    visible ⟨columns ++ [c]⟩ = visible ⟨columns⟩ ++ if c.hidden then [] else [c] := by
  unfold visible
  rw [List.filter_append]
  cases h : c.hidden <;> simp [h]

theorem extend_concat (s : Schema) (columns : List Column) (c : Column) :
    s.extend ⟨columns ++ [c]⟩ = (s.extend ⟨columns⟩).push c :=
  List.foldl_concat ..

theorem Settled.visible_extend {t : Schema} (h : t.Settled) (s : Schema) :
    (s.extend t).visible
      = s.visible.filter (fun c => c.name ∉ t.columns.map (·.name)) ++ t.visible := by
  obtain ⟨columns⟩ := t
  induction columns using List.reverseRecOn with
  | nil =>
      show s.visible = s.visible.filter _ ++ []
      rw [List.append_nil, List.filter_eq_self.mpr]
      exact fun c _ => decide_eq_true List.not_mem_nil
  | append_singleton columns c ih =>
      obtain ⟨hbefore, hnew⟩ := h.of_concat
      have hkept : (visible ⟨columns⟩).filter (·.name ≠ c.name) = visible ⟨columns⟩ :=
        List.filter_eq_self.mpr fun d hd => decide_eq_true (hnew d hd)
      rw [extend_concat, visible_push, ih hbefore, List.filter_append, hkept, visible_concat,
        List.append_assoc, List.filter_filter]
      congr 2
      funext d
      refine (Bool.decide_and _ _).symm.trans (decide_eq_decide.mpr ?_)
      rw [List.map_append, List.mem_append, not_or, and_comm, List.map_singleton,
        List.mem_singleton]

/-- Whatever flags the appended columns have, no other columns come to be seen. -/
theorem mem_visible_of_extend {s t : Schema} {c : Column} (h : c ∈ (s.extend t).visible) :
    c ∈ s.visible ∨ c ∈ t.visible := by
  obtain ⟨columns⟩ := t
  induction columns generalizing s with
  | nil => exact Or.inl h
  | cons d columns ih =>
      have hcons : visible ⟨d :: columns⟩ = (if d.hidden then [] else [d]) ++ visible ⟨columns⟩ := by
        unfold visible
        cases hd : d.hidden <;> simp [hd]
      rw [hcons, List.mem_append]
      rcases ih (s := s.push d) h with hpush | hlater
      · rw [visible_push] at hpush
        rcases List.mem_append.mp hpush with hbefore | hnew
        · exact Or.inl (List.mem_of_mem_filter hbefore)
        · exact Or.inr (Or.inl hnew)
      · exact Or.inr (Or.inr hlater)

/-- Where names are different, a column is the only one of its name. -/
theorem filter_name_eq {columns : List Column} (h : (columns.map (·.name)).Nodup) {c : Column}
    (hc : c ∈ columns) : columns.filter (·.name = c.name) = [c] := by
  obtain ⟨front, back, rfl⟩ := List.append_of_mem hc
  rw [List.map_append, List.map_cons, List.nodup_middle, List.nodup_cons, ← List.map_append] at h
  have hother : ∀ d ∈ front ++ back, ¬ decide (d.name = c.name) = true := by
    intro d hd hname
    exact h.1 (List.mem_map.mpr ⟨d, hd, of_decide_eq_true hname⟩)
  refine List.filter_eq_cons_iff.mpr ⟨front, back, rfl, ?_, decide_eq_true rfl, ?_⟩
  · exact fun d hd => hother d (List.mem_append_left _ hd)
  · exact List.filter_eq_nil_iff.mpr fun d hd => hother d (List.mem_append_right _ hd)

/-- A visible column of a settled schema, appended to any other, is the only visible one of its
name. -/
theorem Settled.filter_visible_extend {t : Schema} (h : t.Settled) (s : Schema) {c : Column}
    (hc : c ∈ t.visible) : (s.extend t).visible.filter (·.name = c.name) = [c] := by
  have hnone : (s.visible.filter fun d => d.name ∉ t.columns.map (·.name)).filter
      (·.name = c.name) = [] := by
    refine List.filter_eq_nil_iff.mpr fun d hd hname => ?_
    have hnew := of_decide_eq_true (List.mem_filter.mp hd).2
    rw [of_decide_eq_true hname] at hnew
    exact hnew (List.mem_map_of_mem (mem_visible.mp hc).1)
  rw [h.visible_extend s, List.filter_append, hnone, filter_name_eq h.nodup_visible hc]
  rfl

end Schema

end ModelExport
