import Mathlib.Data.List.Induction
import Mathlib.Data.List.Nodup
import Mathlib.Data.List.Perm.Subperm
import ModelExport.Export.Save
import ModelExport.Proofs.Wire.Exact
import ModelExport.Proofs.Wire.Progress

/-!
# Models are no larger than their bytes

What is read from bytes has at most as many expressions as there are
bytes, and no list, table, tensor or text in it has more parts
(`Model.decode_bounded`), whatever the bytes declare. An expression is a
choice among the data, and the bytes back every choice with a byte of its
own; the rest is carried over from the data by what `Exact` says of them.
-/

namespace ModelExport

namespace Datum

/-! ## Counting choices -/

/-- The number of choices among the data inside. -/
def choices (d : Datum) : Nat := d.subdata.countP isChoice

def choicesOfItems (items : List Datum) : Nat := (subdataOfItems items).countP isChoice

@[simp] theorem choices_variant (index : Nat) (content : Datum) :
    (variant index content).choices = content.choices + 1 := by
  rw [choices, subdata]
  exact List.countP_cons_of_pos rfl

@[simp] theorem choices_record (fields : List Datum) :
    (record fields).choices = choicesOfItems fields := by
  simp [choices, choicesOfItems, subdata, isChoice]

@[simp] theorem choices_list (items : List Datum) :
    (list items).choices = choicesOfItems items := by
  simp [choices, choicesOfItems, subdata, isChoice]

@[simp] theorem choices_present (d : Datum) : (present d).choices = d.choices := by
  simp [choices, subdata, isChoice]

@[simp] theorem choicesOfItems_nil : choicesOfItems [] = 0 := rfl

@[simp] theorem choicesOfItems_cons (d : Datum) (rest : List Datum) :
    choicesOfItems (d :: rest) = d.choices + choicesOfItems rest := by
  simp [choices, choicesOfItems, subdataOfItems]

end Datum

open ByteReader (Takes)
open Datum (choices choicesOfItems)

namespace Expr

/-! ## Counting expressions -/

mutual

/-- The number of expressions that the expression consists of, itself included. -/
def nodes : Expr → Nat
  | .literal _ | .variable _ | .function _ | .comment _ => 1
  | .call target args => target.nodes + nodesOfAll args + 1
  | .bind bindings => nodesOfBindings bindings + 1
  | .assign _ value => value.nodes + 1
  | .loop inits condition body step =>
      nodesOfBindings inits + condition.nodes + nodesOfAll body + nodesOfAll step + 1
  | .each _ sequence body => sequence.nodes + nodesOfAll body + 1
  | .branch condition thenBody none => condition.nodes + nodesOfAll thenBody + 1
  | .branch condition thenBody (some elseBody) =>
      condition.nodes + nodesOfAll thenBody + nodesOfAll elseBody + 1
  | .access container path none => container.nodes + nodesOfAll path + 1
  | .access container path (some fallback) =>
      container.nodes + nodesOfAll path + fallback.nodes + 1
  | .lambda _ body => nodesOfAll body + 1

def nodesOfAll : List Expr → Nat
  | [] => 0
  | e :: rest => e.nodes + nodesOfAll rest

def nodesOfBindings : List Binding → Nat
  | [] => 0
  | .mk _ value :: rest => value.nodes + nodesOfBindings rest

end

mutual

theorem nodes_le_choices : ∀ e : Expr, e.nodes ≤ e.toDatum.choices
  | .literal _ | .variable _ | .function _ | .comment _ => by
      simp [nodes, toDatum]
  | .call target args => by
      have := nodes_le_choices target
      have := nodesOfAll_le_choices args
      simp [nodes, toDatum]
      omega
  | .bind bindings => by
      have := nodesOfBindings_le_choices bindings
      simp [nodes, toDatum]
      omega
  | .assign _ value => by
      have := nodes_le_choices value
      simp [nodes, toDatum]
      omega
  | .loop inits condition body step => by
      have := nodesOfBindings_le_choices inits
      have := nodes_le_choices condition
      have := nodesOfAll_le_choices body
      have := nodesOfAll_le_choices step
      simp [nodes, toDatum]
      omega
  | .each _ sequence body => by
      have := nodes_le_choices sequence
      have := nodesOfAll_le_choices body
      simp [nodes, toDatum]
      omega
  | .branch condition thenBody none => by
      have := nodes_le_choices condition
      have := nodesOfAll_le_choices thenBody
      simp [nodes, toDatum]
      omega
  | .branch condition thenBody (some elseBody) => by
      have := nodes_le_choices condition
      have := nodesOfAll_le_choices thenBody
      have := nodesOfAll_le_choices elseBody
      simp [nodes, toDatum]
      omega
  | .access container path none => by
      have := nodes_le_choices container
      have := nodesOfAll_le_choices path
      simp [nodes, toDatum]
      omega
  | .access container path (some fallback) => by
      have := nodes_le_choices container
      have := nodesOfAll_le_choices path
      have := nodes_le_choices fallback
      simp [nodes, toDatum]
      omega
  | .lambda _ body => by
      have := nodesOfAll_le_choices body
      simp [nodes, toDatum]
      omega

theorem nodesOfAll_le_choices : ∀ es : List Expr, nodesOfAll es ≤ choicesOfItems (toData es)
  | [] => Nat.zero_le _
  | e :: rest => by
      rw [nodesOfAll, toData, Datum.choicesOfItems_cons]
      exact Nat.add_le_add e.nodes_le_choices (nodesOfAll_le_choices rest)

theorem nodesOfBindings_le_choices : ∀ bs : List Binding,
    nodesOfBindings bs ≤ choicesOfItems (bindingsToData bs)
  | [] => Nat.zero_le _
  | .mk _ value :: rest => by
      have := nodes_le_choices value
      have := nodesOfBindings_le_choices rest
      simp [nodesOfBindings, bindingsToData, bindingToDatum]
      omega

end

end Expr

/-! ## Tables of types -/

namespace Table

universe u

variable {α : Type u}

theorem mem_write {name : String} {value : α} {entries : List (String × α)} {e : String × α}
    (h : e ∈ write name value entries) : e = (name, value) ∨ e ∈ entries := by
  induction entries with
  | nil => exact .inl (List.mem_singleton.mp h)
  | cons first rest ih =>
      unfold write at h
      split at h
      · next heq =>
          rcases List.mem_cons.mp h with rfl | h
          · exact .inl (by rw [heq])
          · exact .inr (List.mem_cons_of_mem _ h)
      · rcases List.mem_cons.mp h with rfl | h
        · exact .inr List.mem_cons_self
        · exact (ih h).imp_right (List.mem_cons_of_mem _)

/-- Nothing stands in the table that was not written. -/
theorem entries_ofList_subset (entries : List (String × α)) :
    (ofList entries).entries ⊆ entries := by
  induction entries using List.reverseRecOn with
  | nil => exact List.Subset.refl _
  | append_singleton entries e ih =>
      intro e' he'
      rw [ofList, List.foldl_append] at he'
      rcases mem_write he' with rfl | he'
      · exact List.mem_append_right _ (List.mem_singleton_self _)
      · exact List.mem_append_left _ (ih he')

theorem length_entries_ofList_le (entries : List (String × α)) :
    (ofList entries).entries.length ≤ entries.length :=
  ((List.Nodup.of_map _ (ofList entries).nodup).subperm (entries_ofList_subset entries)).length_le

end Table

/-! ## Models -/

namespace Function

/-- The number of expressions in the bodies of the functions. -/
def nodesOfBodies : List Function → Nat
  | [] => 0
  | f :: rest => Expr.nodesOfAll f.body + nodesOfBodies rest

theorem nodesOfAll_body_le_choices (f : Function) : Expr.nodesOfAll f.body ≤ f.toDatum.choices := by
  have := Expr.nodesOfAll_le_choices f.body
  simp [toDatum]
  omega

theorem nodesOfBodies_le_choices (functions : List Function) :
    nodesOfBodies functions ≤ choicesOfItems (functions.map toDatum) := by
  induction functions with
  | nil => exact Nat.zero_le _
  | cons f rest ih =>
      rw [nodesOfBodies, List.map_cons, Datum.choicesOfItems_cons]
      exact Nat.add_le_add f.nodesOfAll_body_le_choices ih

end Function

namespace Program

/-- The number of expressions in the body and in the bodies of the functions. -/
def nodes (p : Program) : Nat :=
  Expr.nodesOfAll p.body + Function.nodesOfBodies p.functions

variable {d : Datum} {p : Program}

theorem nodes_le_choices (h : ofDatum? d = some p) : p.nodes ≤ d.choices := by
  obtain ⟨entries, -, rfl⟩ := exists_of_ofDatum? h
  have := Expr.nodesOfAll_le_choices p.body
  have := Function.nodesOfBodies_le_choices p.functions
  simp [nodes]
  omega

/-- The data that the program is stored as are no larger than those it was read from. -/
theorem extents_le (h : ofDatum? d = some p) {n : Nat} (hd : ∀ q ∈ d.subdata, q.extent ≤ n) :
    ∀ q ∈ p.toDatum.subdata, q.extent ≤ n := by
  obtain ⟨entries, htypes, rfl⟩ := exists_of_ofDatum? h
  have hlength := Table.length_entries_ofList_le entries
  have hsubset := Table.entries_ofList_subset entries
  simp only [toDatum, Table.toDatum, htypes, Datum.subdata, Datum.subdataOfItems,
    Datum.subdataOfEntries_eq_flatMap, Datum.extent, List.forall_mem_cons, List.forall_mem_append,
    List.forall_mem_flatMap, List.forall_mem_map, List.length_map] at hd ⊢
  obtain ⟨hrecord, hname, hsignature, hbody, hfunctions, ⟨htable, hentries⟩, hnil⟩ := hd
  exact ⟨hrecord, hname, hsignature, hbody, hfunctions,
    ⟨Nat.le_trans hlength htable, fun e he => hentries e (hsubset he)⟩, hnil⟩

end Program

namespace Model

def nodes (m : Model) : Nat := m.program.nodes

variable {d : Datum} {m : Model}

theorem nodes_le_choices (h : ofDatum? d = some m) : m.nodes ≤ d.choices := by
  obtain ⟨program, hprogram, rfl⟩ := exists_of_ofDatum? h
  have := Program.nodes_le_choices hprogram
  simp [nodes]
  omega

theorem extents_le (h : ofDatum? d = some m) {n : Nat} (hd : ∀ q ∈ d.subdata, q.extent ≤ n) :
    ∀ q ∈ m.toDatum.subdata, q.extent ≤ n := by
  obtain ⟨program, hprogram, rfl⟩ := exists_of_ofDatum? h
  simp only [toDatum, Datum.subdata, Datum.subdataOfItems, Datum.extent, List.forall_mem_cons,
    List.forall_mem_append] at hd ⊢
  obtain ⟨hrecord, hversion, hname, hrelease, hdomain, hmodel, hrest, hnil⟩ := hd
  exact ⟨hrecord, hversion, hname, hrelease, hdomain, hmodel,
    Program.extents_le hprogram hrest, hnil⟩

theorem exists_of_decode {bytes : List UInt8} (h : decode bytes = .ok m) :
    ∃ rest, Wire.decode bytes = .ok (m, rest) := by
  unfold decode at h
  split at h
  · next rest hread =>
      cases h
      exact ⟨rest, hread⟩
  · cases h

/-- The bytes alone bound what reading them does and gives, whatever they
declare. More levels than bytes change nothing; each item of a list and each
entry of a table takes a byte; a loop over more of them than there are bytes
fails, and in one way; so does a text that is longer. Of a model that is read
the expressions are at most as many as the bytes, and so are the parts of each
text, list, tensor and table in it. -/
theorem decode_bounded (bytes : List UInt8) :
    (∀ level, bytes.length < level →
        Datum.readEntity level .model bytes = Datum.decode .model bytes)
    ∧ (∀ level shape,
        let readItem := Datum.readShape (Datum.readEntity level) shape
        Takes readItem (fun _ n => 0 < n)
        ∧ ∃ e, ∀ count, bytes.length < count → Datum.readMany readItem count bytes = .error e)
    ∧ (∀ level key value,
        let readEntry := Datum.readEntry (Datum.readEntity level) key value
        Takes readEntry (fun _ n => 0 < n)
        ∧ ∃ e, ∀ count, bytes.length < count → Datum.readMany readEntry count bytes = .error e)
    ∧ (∀ count, bytes.length < count → ByteReader.take count bytes = .error .endOfInput)
    ∧ ∀ m, decode bytes = .ok m →
        m.nodes ≤ bytes.length ∧ ∀ p ∈ m.toDatum.subdata, p.extent ≤ bytes.length := by
  refine ⟨fun level hlevel => Datum.readEntity_eq_decode hlevel .model, fun level shape => ?items,
    fun level key value => ?entries, fun count hcount => if_neg (Nat.not_le_of_lt hcount),
    fun m hm => ?model⟩
  case items =>
    have hitem := (Datum.takes_readShape (Datum.takes_readEntity level) shape).mono
      fun _ _ hd => hd.parts
    exact ⟨hitem, Datum.readMany_of_length_lt hitem bytes⟩
  case entries =>
    have hshape := Datum.takes_readShape (Datum.takes_readEntity level)
    have hentry := (Datum.takes_readEntry (hshape key) (hshape value)).mono fun _ _ he => he.parts
    exact ⟨hentry, Datum.readMany_of_length_lt hentry bytes⟩
  case model =>
    obtain ⟨rest, hm⟩ := exists_of_decode hm
    obtain ⟨d, hread, hd⟩ := Wire.exists_of_decode hm
    obtain ⟨n, hlength, hbacked⟩ := Datum.takes_readEntity _ _ bytes d rest hread
    have hn : n ≤ bytes.length := by omega
    exact ⟨Nat.le_trans (nodes_le_choices hd) (Nat.le_trans hbacked.choices hn),
      extents_le hd fun q hq => Nat.le_trans (hbacked.extents q hq) hn⟩

end Model

end ModelExport
