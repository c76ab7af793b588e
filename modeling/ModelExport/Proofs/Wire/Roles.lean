import ModelExport.Proofs.Table.Sorted
import ModelExport.Proofs.Wire.ReadBack
import ModelExport.Proofs.Wire.Respelling
import ModelExport.Wire.Roles

/-!
# Stored roles come back

Roles are stored lawfully, so their bytes are read back whatever the custom ones
are called. In a text a role has to be the name of a field, which a case with
content cannot be: roles have a text exactly when none of them is custom, and
this text is read back (`Roles.ofText?_of_toJson?`). `Roles.stored_given` puts
both notations together for roles that are given one by one.
-/

namespace ModelExport

open Datum (Fits)

namespace Datum

/-! ## Records of one field -/

variable {e : Entity} {field : Field}

theorem toJson?_record_singleton (he : e.layout = .record [field])
    (hopt : field.optional = false) (d : Datum) :
    toJson? (.entity e) (.record [d])
      = (toJson? field.shape d).map fun j => .object [(field.name, j)] := by
  have hfield : fieldToJson? field d = toJson? field.shape d := by simp [fieldToJson?, hopt]
  rw [toJson?, he]
  dsimp only
  rw [fieldsToJson?_cons, hfield]
  cases toJson? field.shape d <;> rfl

theorem ofJson?_record_singleton (he : e.layout = .record [field])
    (hopt : field.optional = false) {budget : Nat} {j : Json} {d : Datum}
    (h : ofJson? budget field.shape j = some d) :
    ofJson? (budget + 1) (.entity e) (.object [(field.name, j)]) = some (.record [d]) := by
  have hfind : [field].find? (·.name = field.name) = some field := by simp
  have hfield : fieldOfJson? budget field j = some d := by simp [fieldOfJson?, hopt, h]
  have hfields : fieldsOfJson? budget [field] [(some field.name, j)] = some [(field.name, d)] := by
    rw [fieldsOfJson?_cons hfind, hfield]
    rfl
  have harrange : arrange? [field] [(field.name, d)] = some [d] := by
    simp [arrange?, List.lookup_cons]
  rw [Json.object, ofJson?_record he, if_neg (Nat.succ_ne_zero budget), Nat.add_sub_cancel,
    List.map_singleton, hfields, Option.bind_some, harrange, Option.map_some]

end Datum

namespace Role

/-! ## One role -/

/-- Whether no usual name stands for the role. -/
def isCustom : Role → Bool
  | .custom _ => true
  | _ => false

theorem fits_toDatum : ∀ r : Role, Fits (.entity .role) r.toDatum
  | .label | .features | .groupId | .weight | .name => .variant rfl rfl .empty
  | .custom text => .variant rfl rfl (.one (.text text))

@[simp] theorem ofDatum?_toDatum (r : Role) : ofDatum? r.toDatum = some r := by
  cases r <;> rfl

theorem keyText?_toDatum (r : Role) :
    Datum.keyText? (.entity .role) r.toDatum = if r.isCustom then none else some r.text := by
  cases r <;> rfl

theorem ofKey?_text {r : Role} (h : r.isCustom = false) :
    Datum.ofKey? (.entity .role) (some r.text) = some r.toDatum := by
  cases r with
  | custom text => cases h
  | _ => rfl

end Role

namespace Roles

/-! ## Bytes -/

theorem fits_toDatum (roles : Roles) : Fits (.entity .roles) roles.toDatum := by
  refine .record rfl (.required rfl (.table ?_ ?_) .nil)
  · intro d hd
    obtain ⟨e, -, rfl⟩ := List.mem_map.mp hd
    exact e.1.fits_toDatum
  · intro d hd
    obtain ⟨e, -, rfl⟩ := List.mem_map.mp hd
    exact .text e.2

/-- The entries stand in the order of the roles, in which they are written again. -/
@[simp] theorem ofDatum?_toDatum (roles : Roles) : ofDatum? roles.toDatum = some roles := by
  rw [toDatum, ofDatum?, Datum.entries?_map Role.ofDatum?_toDatum Datum.text?_text,
    Option.map_some, SortedTable.ofList_entries]

instance : LawfulWire Roles := ⟨fits_toDatum, ofDatum?_toDatum⟩

/-! ## Texts -/

/-- The data of the entries. -/
def data (entries : List (Role × String)) : List (Datum × Datum) :=
  entries.map fun e => (e.1.toDatum, .text e.2)

/-- The columns under the names of their roles. -/
def fields (entries : List (Role × String)) : List (String × Json) :=
  entries.map fun e => (e.1.text, .ofString e.2)

def tree (roles : Roles) : Json := .object [("roles", .object (fields roles.entries))]

theorem entriesToJson?_data (entries : List (Role × String)) :
    Datum.entriesToJson? (.entity .role) .text (data entries)
      = if entries.any (·.1.isCustom) then none
        else some ((fields entries).map fun f => (some f.1, f.2)) := by
  induction entries with
  | nil => rfl
  | cons e entries ih =>
      rw [data, List.map_cons, Datum.entriesToJson?, ← data, ih, Role.keyText?_toDatum,
        List.any_cons]
      cases hcustom : e.1.isCustom with
      | true => rfl
      | false => cases entries.any (·.1.isCustom) <;> rfl

theorem entriesOfJson?_fields {entries : List (Role × String)}
    (h : ∀ e ∈ entries, e.1.isCustom = false) (budget : Nat) :
    Datum.entriesOfJson? budget (.entity .role) .text
      ((fields entries).map fun f => (some f.1, f.2)) = some (data entries) := by
  induction entries with
  | nil => rfl
  | cons e entries ih =>
      have hrest := ih fun d hd => h d (List.mem_cons_of_mem _ hd)
      rw [fields, List.map_cons, List.map_cons, Datum.entriesOfJson?, ← fields, hrest,
        Role.ofKey?_text (h e List.mem_cons_self)]
      rfl

/-- Roles have a tree unless one of them is custom. -/
theorem toJson?_eq (roles : Roles) :
    Wire.toJson? roles = if roles.entries.any (·.1.isCustom) then none else some roles.tree := by
  have htable : Datum.toJson? (.table (.entity .role) .text) (.table (data roles.entries))
      = if roles.entries.any (·.1.isCustom) then none
        else some (.object (fields roles.entries)) := by
    rw [Datum.toJson?, entriesToJson?_data]
    split <;> rfl
  refine (Datum.toJson?_record_singleton (e := .roles) rfl rfl _).trans ?_
  dsimp only
  rw [← data, htable]
  split <;> rfl

theorem exists_toJson?_iff {roles : Roles} :
    (∃ j, Wire.toJson? roles = some j) ↔ ∀ r ∈ roles.keys, r.isCustom = false := by
  have hany : roles.entries.any (·.1.isCustom) = true ↔ ¬ ∀ r ∈ roles.keys, r.isCustom = false := by
    simp [SortedTable.keys]
  rw [toJson?_eq]
  split
  · next hcustom => exact iff_of_false nofun (hany.mp hcustom)
  · next husual => exact iff_of_true ⟨_, rfl⟩ (not_not.mp (mt hany.mpr husual))

theorem ofJson?_tree {roles : Roles} (h : ∀ e ∈ roles.entries, e.1.isCustom = false) :
    (Wire.ofJson? Datum.levels roles.tree : Option Roles) = some roles := by
  have htable : Datum.ofJson? (Datum.levels - 1) (.table (.entity .role) .text)
      (.object (fields roles.entries)) = some (.table (data roles.entries)) := by
    rw [Json.object, Datum.ofJson?, entriesOfJson?_fields h]
    rfl
  have hrecord : Datum.ofJson? Datum.levels (.entity .roles) roles.tree = some roles.toDatum :=
    Datum.ofJson?_record_singleton (e := .roles) rfl rfl htable
  show (Datum.ofJson? Datum.levels (.entity .roles) roles.tree).bind ofDatum? = _
  rw [hrecord]
  exact ofDatum?_toDatum roles

theorem ofText?_of_toJson? {roles : Roles} {j : Json} (hj : Wire.toJson? roles = some j) :
    ∀ text ∈ [j.compact, j.pretty], Wire.ofText? text = some roles := by
  have husual : ∀ r ∈ roles.keys, r.isCustom = false := exists_toJson?_iff.mp ⟨j, hj⟩
  have htree := ofJson?_tree fun e he => husual e.1 (List.mem_map_of_mem he)
  rw [toJson?_eq] at hj
  obtain rfl := Option.some.inj (Option.ite_none_left_eq_some.mp hj).2
  simp [Wire.ofText?, Json.parse?_compact, Json.parse?_pretty, htree]

/-- Roles that are given one by one, later ones in the place of earlier ones, are read back from
their bytes, custom ones included. They have a text exactly when no custom role is among them,
and then they are read back from it too, however it is laid out. -/
theorem stored_given (given : List (Role × String)) :
    let roles : Roles := .ofList given
    ((∀ d ∈ (Wire.toDatum roles).subdata, d.Countable) →
        ∀ rest, Wire.decode (Wire.encode roles ++ rest) = .ok (roles, rest))
      ∧ ((∃ j, Wire.toJson? roles = some j) ↔ ∀ e ∈ given, e.1.isCustom = false)
      ∧ ∀ j, Wire.toJson? roles = some j →
          ∀ text ∈ [j.compact, j.pretty], Wire.ofText? text = some roles := by
  intro roles
  refine ⟨Wire.decode_encode, ?_, fun j => ofText?_of_toJson?⟩
  have hkeys : ∀ r, r ∈ roles.keys ↔ r ∈ given.map (·.1) := fun r => SortedTable.mem_keys_ofList
  rw [exists_toJson?_iff]
  simp only [hkeys, List.forall_mem_map]

/-- A custom role that spells like the label and one column after the other for a weight. -/
theorem stored_given_namesake :
    let roles : Roles := .ofList [(.custom "Label", "a"), (.label, "b")]
    let usual : Roles := .ofList [(.weight, "w"), (.label, "b"), (.weight, "v")]
    ((∀ d ∈ (Wire.toDatum roles).subdata, d.Countable)
        ∧ Wire.decode (Wire.encode roles ++ [7]) = .ok (roles, [7]))
      ∧ (Wire.toJson? usual).map Json.compact
          = some "\x7b\x22roles\x22:\x7b\x22Label\x22:\x22b\x22,\x22Weight\x22:\x22v\x22\x7d\x7d"
      ∧ ∃ j, Wire.toJson? usual = some j ∧ Wire.ofText? j.compact = some usual := by
  intro roles usual
  have hcount : ∀ d ∈ (Wire.toDatum roles).subdata, d.Countable := by decide +kernel
  obtain ⟨-, htext, hread⟩ := stored_given [(.weight, "w"), (.label, "b"), (.weight, "v")]
  obtain ⟨j, hj⟩ := htext.mpr (by decide)
  exact ⟨⟨hcount, (stored_given _).1 hcount [7]⟩, by decide +kernel, j, hj, hread j hj _ (by simp)⟩

/-- One custom role leaves no text, though the bytes are read back. -/
theorem custom_without_text :
    let roles : Roles := .ofList [(.custom "Query", "q")]
    Wire.toJson? roles = none ∧ Wire.decode (Wire.encode roles) = .ok (roles, []) :=
  ⟨rfl, rfl⟩

end Roles

end ModelExport
