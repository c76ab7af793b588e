import ModelExport.Proofs.Column.Schema

/-!
# What appending does to the columns

Columns are appended singly or with a whole schema, to any schema: also to one
that was read from a file and has flags and namesakes of its own. Every single
append hides all earlier namesakes once more, yet in the end each column has
only been hidden or not: it is hidden if it was so when it was given, or if a
column of its name was appended behind it (`Schema.columns_extend`).

So flags that come from another schema make no difference when the hiding is
done again: schemas can be joined in any order (`Schema.extend_assoc`). And
where nothing was there first, the last column of a name is the only one of the
name that can be seen (`Schema.column?_extend_empty`).
-/

namespace ModelExport

namespace Column

/-! ## Hiding -/

@[simp] theorem type_hideIf (name : String) (c : Column) : (c.hideIf name).type = c.type := by
  unfold hideIf
  split <;> rfl

theorem eq_of_hidden_iff {c d : Column} (hname : c.name = d.name) (htype : c.type = d.type)
    (hhidden : c.hidden = true ↔ d.hidden = true) : c = d := by
  cases c
  cases d
  rw [Column.mk.injEq]
  exact ⟨hname, htype, Bool.eq_iff_iff.mpr hhidden⟩

/-- The column, hidden if one of the later columns bears its name. -/
def shadowedBy (later : List Column) (c : Column) : Column :=
  { c with hidden := c.hidden || later.any (·.name = c.name) }

@[simp] theorem name_shadowedBy (later : List Column) (c : Column) :
    (c.shadowedBy later).name = c.name := rfl

@[simp] theorem type_shadowedBy (later : List Column) (c : Column) :
    (c.shadowedBy later).type = c.type := rfl

theorem hidden_shadowedBy_iff (later : List Column) (c : Column) :
    (c.shadowedBy later).hidden = true ↔ c.hidden = true ∨ ∃ d ∈ later, d.name = c.name := by
  simp [shadowedBy]

@[simp] theorem shadowedBy_nil : shadowedBy [] = id := by
  funext c
  exact eq_of_hidden_iff rfl rfl (by simp [hidden_shadowedBy_iff])

/-- One more column behind the others hides its namesakes as well. -/
theorem shadowedBy_concat (later : List Column) (d c : Column) :
    c.shadowedBy (later ++ [d]) = (c.shadowedBy later).hideIf d.name := by
  have hlast : (∃ e ∈ later ++ [d], e.name = c.name)
      ↔ (∃ e ∈ later, e.name = c.name) ∨ c.name = d.name := by
    simp [or_and_right, exists_or, eq_comm]
  refine eq_of_hidden_iff (by simp) (by simp) ?_
  rw [hidden_hideIf_iff, hidden_shadowedBy_iff, hidden_shadowedBy_iff, name_shadowedBy, hlast,
    ← or_assoc, or_comm]

theorem hideIf_hideIf (name : String) (c : Column) :
    (c.hideIf name).hideIf name = c.hideIf name := by
  refine eq_of_hidden_iff (by simp) (by simp) ?_
  rw [hidden_hideIf_iff, name_hideIf, hidden_hideIf_iff, ← or_assoc, or_self]

/-- Only the names of the later columns count. -/
theorem shadowedBy_map_hideIf (name : String) (later : List Column) (c : Column) :
    c.shadowedBy (later.map (hideIf name)) = c.shadowedBy later := by
  refine eq_of_hidden_iff (by simp) (by simp) ?_
  simp [hidden_shadowedBy_iff]

theorem shadowedBy_hideIf (name : String) (later : List Column) (c : Column) :
    (c.hideIf name).shadowedBy later = (c.shadowedBy later).hideIf name := by
  refine eq_of_hidden_iff (by simp) (by simp) ?_
  rw [hidden_shadowedBy_iff, hidden_hideIf_iff, hidden_hideIf_iff, hidden_shadowedBy_iff,
    name_shadowedBy, name_hideIf, or_assoc]

end Column

namespace Schema

/-! ## The columns of a joined schema -/

/-- The columns with those hidden that have a later namesake. -/
def settle : List Column → List Column
  | [] => []
  | c :: later => c.shadowedBy later :: settle later

theorem settle_concat (columns : List Column) (c : Column) :
    settle (columns ++ [c]) = (settle columns).map (Column.hideIf c.name) ++ [c] := by
  induction columns with
  | nil => simp [settle]
  | cons d columns ih =>
      rw [List.cons_append, settle, settle, ih, Column.shadowedBy_concat, List.map_cons,
        List.cons_append]

theorem settle_map_hideIf (name : String) (columns : List Column) :
    settle (columns.map (Column.hideIf name)) = (settle columns).map (Column.hideIf name) := by
  induction columns with
  | nil => rfl
  | cons c columns ih =>
      rw [List.map_cons, settle, settle, List.map_cons, ih, Column.shadowedBy_map_hideIf,
        Column.shadowedBy_hideIf]

theorem columns_push (s : Schema) (c : Column) :
    (s.push c).columns = s.columns.map (Column.hideIf c.name) ++ [c] := rfl

/-- The columns that were there, hidden by what was appended, and behind them the appended ones,
hidden by each other. -/
theorem columns_extend (s : Schema) (columns : List Column) :
    (s.extend ⟨columns⟩).columns
      = s.columns.map (Column.shadowedBy columns) ++ settle columns := by
  induction columns using List.reverseRecOn with
  | nil => simp [Schema.extend, settle]
  | append_singleton columns c ih =>
      have hkept : s.columns.map (Column.shadowedBy (columns ++ [c]))
          = (s.columns.map (Column.shadowedBy columns)).map (Column.hideIf c.name) := by
        rw [List.map_map]
        exact List.map_congr_left fun d _ => Column.shadowedBy_concat columns c d
      rw [extend_concat, columns_push, ih, hkept, settle_concat, List.map_append,
        List.append_assoc]

/-- It makes no difference whether a column has already hidden its namesakes among the columns
that are appended with it. -/
theorem extend_push (s t : Schema) (c : Column) : s.extend (t.push c) = (s.extend t).push c := by
  have hkept : (s.columns.map (Column.shadowedBy (t.columns.map (Column.hideIf c.name)))).map
      (Column.hideIf c.name)
        = (s.columns.map (Column.shadowedBy t.columns)).map (Column.hideIf c.name) := by
    rw [List.map_congr_left fun d _ => Column.shadowedBy_map_hideIf c.name t.columns d]
  have htwice : ((settle t.columns).map (Column.hideIf c.name)).map (Column.hideIf c.name)
      = (settle t.columns).map (Column.hideIf c.name) := by
    rw [List.map_map]
    exact List.map_congr_left fun d _ => Column.hideIf_hideIf c.name d
  -- at the end of both sides `c` hides its namesakes, so that what it hid in `t` does not show
  have hcolumns : (s.extend (t.push c)).columns = ((s.extend t).push c).columns := by
    rw [show t.push c = ⟨t.columns.map (Column.hideIf c.name) ++ [c]⟩ from rfl, extend_concat,
      columns_push, columns_push, columns_extend, columns_extend, List.map_append,
      List.map_append, hkept, settle_map_hideIf, htwice]
  exact congrArg Schema.mk hcolumns

theorem extend_assoc (s t u : Schema) : (s.extend t).extend u = s.extend (t.extend u) := by
  obtain ⟨columns⟩ := u
  induction columns using List.reverseRecOn with
  | nil => rfl
  | append_singleton columns c ih => rw [extend_concat, ih, extend_concat, extend_push]

/-! ## Position by position -/

theorem length_settle (columns : List Column) : (settle columns).length = columns.length := by
  induction columns with
  | nil => rfl
  | cons c columns ih => rw [settle, List.length_cons, List.length_cons, ih]

theorem getElem?_settle (columns : List Column) (i : Nat) :
    (settle columns)[i]? = columns[i]?.map (Column.shadowedBy (columns.drop (i + 1))) := by
  induction columns generalizing i with
  | nil => rfl
  | cons c columns ih =>
      cases i with
      | zero => rfl
      | succ i => exact ih i

/-- The columns in front are hidden by everything that was appended, an appended one by what was
appended behind it. -/
theorem getElem?_columns_extend (s : Schema) (columns : List Column) (i : Nat) :
    (s.extend ⟨columns⟩).columns[i]? = (s.columns ++ columns)[i]?.map
      (Column.shadowedBy ((s.columns ++ columns).drop (max (i + 1) s.columns.length))) := by
  rw [columns_extend]
  rcases Nat.lt_or_ge i s.columns.length with hi | hi
  · rw [Nat.max_eq_right hi, List.drop_left, List.getElem?_append_left (by simpa using hi),
      List.getElem?_append_left hi, List.getElem?_map]
  · rw [Nat.max_eq_left (Nat.le_succ_of_le hi), List.getElem?_append_right (by simpa using hi),
      List.getElem?_append_right hi, List.length_map, getElem?_settle, List.drop_append,
      List.drop_eq_nil_of_le (Nat.le_succ_of_le hi), List.nil_append,
      Nat.succ_sub hi]

/-- The result holds the columns of the schema and behind them the appended ones, in this order
and with their names and types. A column is hidden if it was given so, or if one that was appended
behind it has its name. -/
structure Joined (s : Schema) (added : List Column) (result : Schema) : Prop where
  length_eq : result.columns.length = s.columns.length + added.length
  column_eq : ∀ i c, (s.columns ++ added)[i]? = some c →
    ∃ d, result.columns[i]? = some d ∧ d.name = c.name ∧ d.type = c.type
      ∧ (d.hidden = true ↔ c.hidden = true
          ∨ ∃ j later, i < j ∧ s.columns.length ≤ j ∧ (s.columns ++ added)[j]? = some later
              ∧ later.name = c.name)

theorem joined_extend (s : Schema) (columns : List Column) :
    Joined s columns (s.extend ⟨columns⟩) where
  length_eq := by
    rw [columns_extend, List.length_append, List.length_map, length_settle]
  column_eq i c hc := by
    have hd := getElem?_columns_extend s columns i
    rw [hc, Option.map_some] at hd
    refine ⟨_, hd, rfl, rfl, (Column.hidden_shadowedBy_iff _ c).trans ?_⟩
    refine or_congr_right ⟨?_, ?_⟩
    · rintro ⟨d, hd, hname⟩
      obtain ⟨k, hk⟩ := List.mem_iff_getElem?.mp hd
      rw [List.getElem?_drop] at hk
      exact ⟨_, d, by omega, by omega, hk, hname⟩
    · rintro ⟨j, later, hij, hj, hlater, hname⟩
      have hback : max (i + 1) s.columns.length + (j - max (i + 1) s.columns.length) = j := by omega
      refine ⟨later, List.mem_iff_getElem?.mpr ⟨j - max (i + 1) s.columns.length, ?_⟩, hname⟩
      rw [List.getElem?_drop, hback, hlater]

/-! ## The columns that can be seen -/

/-- The appended column takes its name over, even when it is hidden itself. -/
theorem column?_push (s : Schema) (c : Column) (name : String) :
    (s.push c).column? name
      = if c.name = name then if c.hidden then none else some c else s.column? name := by
  have hbefore : (s.visible.filter (·.name ≠ c.name)).find? (·.name = name)
      = if c.name = name then none else s.column? name := by
    by_cases hname : c.name = name
    · rw [if_pos hname, List.find?_eq_none]
      intro d hd hd'
      exact of_decide_eq_true (List.mem_filter.mp hd).2
        ((of_decide_eq_true hd').trans hname.symm)
    · rw [if_neg hname, column?, List.find?_filter]
      congr 1
      funext d
      by_cases hd : d.name = name <;> simp [hd, Ne.symm hname]
  rw [column?, visible_push, List.find?_append, hbefore]
  by_cases hname : c.name = name <;> cases c.hidden <;> simp [hname]

theorem column?_extend_empty (columns : List Column) (name : String) :
    (Schema.extend {} ⟨columns⟩).column? name
      = (columns.filter (·.name = name)).getLast?.filter (!·.hidden) := by
  induction columns using List.reverseRecOn with
  | nil => rfl
  | append_singleton columns c ih =>
      rw [extend_concat, column?_push, ih, List.filter_append]
      by_cases hname : c.name = name
      · cases hhidden : c.hidden <;> simp [hname, hhidden, Option.filter_some]
      · simp [hname]

end Schema

/-! ## Ways of appending -/

/-- One way of appending to a schema. -/
inductive Appending where
  | push (c : Column)
  | withColumn (name : String) (type : ColumnType)
  | extend (t : Schema)

namespace Appending

/-- The columns that are appended, as they are given. -/
def columns : Appending → List Column
  | .push c => [c]
  | .withColumn name type => [{ name, type }]
  | .extend t => t.columns

def apply (s : Schema) : Appending → Schema
  | .push c => s.push c
  | .withColumn name type => s.withColumn name type
  | .extend t => s.extend t

theorem apply_eq (s : Schema) (step : Appending) : apply s step = s.extend ⟨step.columns⟩ := by
  cases step <;> rfl

end Appending

namespace Schema

/-- Appends by one way after the other. -/
def appendAll (s : Schema) (steps : List Appending) : Schema := steps.foldl Appending.apply s

theorem appendAll_eq (s : Schema) (steps : List Appending) :
    s.appendAll steps = s.extend ⟨steps.flatMap Appending.columns⟩ := by
  induction steps generalizing s with
  | nil => rfl
  | cons step steps ih =>
      rw [appendAll, List.foldl_cons, ← appendAll, ih, Appending.apply_eq, List.flatMap_cons]
      exact (List.foldl_append ..).symm

theorem appended_appendAll (steps : List Appending) : Appended (appendAll {} steps) := by
  rw [appendAll_eq]
  exact .extend .empty _

/-- However columns are appended, to whatever schema, the result joins them to it. Schemas that
are built from nothing show each name at most once: by the last column of the name, or not at all
if that one was given as hidden. And schemas can be joined in any order. -/
theorem appending_hides_namesakes :
    (∀ (s : Schema) (steps : List Appending),
        Joined s (steps.flatMap Appending.columns) (s.appendAll steps))
    ∧ (∀ steps : List Appending,
        ((appendAll {} steps).visible.map (·.name)).Nodup
        ∧ ∀ name, (appendAll {} steps).column? name
            = ((steps.flatMap Appending.columns).filter (·.name = name)).getLast?.filter
                (!·.hidden))
    ∧ ∀ s t u : Schema, (s.extend t).extend u = s.extend (t.extend u) := by
  refine ⟨fun s steps => ?_, fun steps => ⟨?_, fun name => ?_⟩, extend_assoc⟩
  · rw [appendAll_eq]
    exact joined_extend s _
  · exact (appended_appendAll steps).settled.nodup_visible
  · rw [appendAll_eq]
    exact column?_extend_empty _ name

/-- A stored schema that shows a name twice, and a column of this name that is given as hidden. -/
theorem appending_hides_namesakes_stored :
    let text : ColumnType := .ofKind .text
    let stored : Schema := ⟨[⟨"a", text, false⟩, ⟨"a", text, false⟩, ⟨"b", text, true⟩]⟩
    let steps : List Appending := [.withColumn "b" text, .extend ⟨[⟨"a", text, true⟩]⟩]
    Joined stored (steps.flatMap Appending.columns) (stored.appendAll steps)
      ∧ (stored.appendAll steps).columns.map (·.hidden) = [true, true, true, false, true]
      ∧ (appendAll {} steps).column? "b" = some ⟨"b", text, false⟩
      ∧ (appendAll {} steps).column? "a" = none := by
  intro text stored steps
  obtain ⟨hjoined, hempty, -⟩ := appending_hides_namesakes
  refine ⟨hjoined stored steps, by decide, ?_, ?_⟩
  · exact ((hempty steps).2 "b").trans (by decide)
  · exact ((hempty steps).2 "a").trans (by decide)

end Schema

end ModelExport
