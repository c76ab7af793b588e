import ModelExport.Column.Schema
import ModelExport.Table.Sorted

/-!
# Roles of columns

A predictor asks for columns by the role they play. The usual roles have
a conventional column each; a custom role has the column of its name.
Roles are ordered by their kind and custom ones by their name.
-/

namespace ModelExport

/-- The role that a column plays for a predictor. -/
inductive Role where
  | label | features | groupId | weight | name
  | custom (text : String)
  deriving DecidableEq

namespace Role

/-- The roles assumed where none are given. -/
def usual : List Role := [.label, .features, .groupId, .weight, .name]

/-- The name of the role, which is that of its conventional column. -/
def text : Role → String
  | .label => "Label"
  | .features => "Features"
  | .groupId => "GroupId"
  | .weight => "Weight"
  | .name => "Name"
  | .custom text => text

/-- The position of the kind of role; it is also its number in stored files. -/
def rank : Role → Nat
  | .label => 0
  | .features => 1
  | .groupId => 2
  | .weight => 3
  | .name => 4
  | .custom _ => 5

instance : Ord Role where
  compare := compareLex (compareOn rank) (compareOn text)

instance : Std.TransOrd Role :=
  inferInstanceAs (Std.TransCmp (compareLex (compareOn rank) (compareOn text)))

theorem eq_of_rank_text {a b : Role} (hr : a.rank = b.rank) (ht : a.text = b.text) : a = b := by
  cases a <;> cases b <;> simp_all [rank, text]

instance : Std.LawfulEqOrd Role where
  compare_self := by
    intro a
    have hr : compare a.rank a.rank = .eq := Std.ReflOrd.compare_self
    have ht : compare a.text a.text = .eq := Std.ReflOrd.compare_self
    show (compare a.rank a.rank).then (compare a.text a.text) = .eq
    rw [hr, ht]
    rfl
  eq_of_compare := by
    intro a b h
    have h : (compare a.rank b.rank).then (compare a.text b.text) = .eq := h
    rw [Ordering.then_eq_eq] at h
    exact eq_of_rank_text (Std.LawfulEqOrd.eq_of_compare h.1) (Std.LawfulEqOrd.eq_of_compare h.2)

end Role

/-- Which column plays which role. -/
abbrev Roles := SortedTable Role String

namespace Roles

/-- The usual roles whose conventional columns are visible. -/
def defaultsFor (s : Schema) : Roles :=
  SortedTable.ofList
    ((Role.usual.filter (fun r => (s.column? r.text).isSome)).map (fun r => (r, r.text)))

end Roles

end ModelExport
