import ModelExport.Proofs.Export.Bounds
import ModelExport.Proofs.Export.Respelling
import ModelExport.Proofs.Expr.Checked

/-!
# Readers leave conditions to the data

No reader looks at what the checked constructors demand. It takes the data as
they stand, and so a model has the flaws of the data that it was read from and
no others: `Datum.flaws` finds in data what the constructors refuse in
expressions, and both notations hand it over one by one
(`Model.refusals_eq_flaws`).
-/

namespace ModelExport

theorem filterMap_cons_toList {α β : Type} (f : α → Option β) (a : α) (l : List α) :
    (a :: l).filterMap f = (f a).toList ++ l.filterMap f := by
  rw [List.filterMap_cons]
  cases f a <;> rfl

namespace Datum

/-! ## Flaws in data -/

/-- What the datum lacks that a statement with new names, a counting loop, an
access or a tensor has to have. No other data of a model look like these. -/
def flaw? : Datum → Option ValueError
  -- The numbers are the positions of the cases in the layout of expressions.
  | .variant 4 (.list []) => some .emptyLet
  | .variant 6 (.record (.list [] :: _)) => some .emptyLoop
  | .variant 9 (.record (_ :: .list [] :: _)) => some .emptyPath
  | .record [.list dims, .variant _ (.list elements)] =>
      (dims.mapM uint?).bind fun dims => Tensor.misfit? dims elements.length
  | _ => none

/-- The flaws of the datum and of all data inside it, in their order. -/
def flaws (d : Datum) : List ValueError := d.subdata.filterMap flaw?

def flawsOfItems (items : List Datum) : List ValueError := (subdataOfItems items).filterMap flaw?

@[simp] theorem flaws_variant (index : Nat) (content : Datum) :
    (variant index content).flaws = (variant index content).flaw?.toList ++ content.flaws := by
  rw [flaws, subdata, filterMap_cons_toList]
  rfl

@[simp] theorem flaws_record (fields : List Datum) :
    (record fields).flaws = (record fields).flaw?.toList ++ flawsOfItems fields := by
  rw [flaws, subdata, filterMap_cons_toList]
  rfl

@[simp] theorem flaws_list (items : List Datum) : (list items).flaws = flawsOfItems items := by
  rw [flaws, subdata, List.filterMap_cons]
  rfl

@[simp] theorem flaws_present (d : Datum) : (present d).flaws = d.flaws := by
  rw [flaws, subdata, List.filterMap_cons]
  rfl

@[simp] theorem flaws_bool (b : Bool) : (bool b).flaws = [] := rfl

@[simp] theorem flaws_uint (n : UInt64) : (uint n).flaws = [] := rfl

@[simp] theorem flaws_int (n : Int64) : (int n).flaws = [] := rfl

@[simp] theorem flaws_single (x : Single) : (single x).flaws = [] := rfl

@[simp] theorem flaws_text (s : String) : (text s).flaws = [] := rfl

@[simp] theorem flaws_absent : absent.flaws = [] := rfl

@[simp] theorem flawsOfItems_nil : flawsOfItems [] = [] := rfl

@[simp] theorem flawsOfItems_cons (d : Datum) (rest : List Datum) :
    flawsOfItems (d :: rest) = d.flaws ++ flawsOfItems rest := by
  simp [flaws, flawsOfItems, subdataOfItems]

theorem flawsOfItems_map {α : Type} {f : α → Datum} (h : ∀ a, (f a).flaws = []) (l : List α) :
    flawsOfItems (l.map f) = [] := by
  induction l with
  | nil => rfl
  | cons a l ih => rw [List.map_cons, flawsOfItems_cons, h, ih]; rfl

def flawsOfEntries (entries : List (Datum × Datum)) : List ValueError :=
  (subdataOfEntries entries).filterMap flaw?

@[simp] theorem flaws_table (entries : List (Datum × Datum)) :
    (table entries).flaws = flawsOfEntries entries := by
  rw [flaws, subdata, List.filterMap_cons]
  rfl

theorem flawsOfEntries_map {α : Type} {f g : α → Datum} (hf : ∀ a, (f a).flaws = [])
    (hg : ∀ a, (g a).flaws = []) (l : List α) :
    flawsOfEntries (l.map fun a => (f a, g a)) = [] := by
  induction l with
  | nil => rfl
  | cons a l ih =>
      rw [List.map_cons, flawsOfEntries, subdataOfEntries, List.filterMap_append,
        List.filterMap_append]
      show (f a).flaws ++ ((g a).flaws ++ flawsOfEntries _) = []
      rw [hf, hg, ih]
      rfl

end Datum

open Datum (flaw? flawsOfItems flawsOfItems_map)

/-! ## Data without flaws -/

@[simp] theorem ElementKind.flaws_toDatum (k : ElementKind) : k.toDatum.flaws = [] := by
  cases k <;> rfl

@[simp] theorem Extent.flaws_toDatum (x : Extent) : x.toDatum.flaws = [] := by
  cases x <;> rfl

@[simp] theorem Descriptor.flaws_toDatum (t : Descriptor) : t.toDatum.flaws = [] := by
  induction t with
  | scalar kind => simp [toDatum, flaw?]
  | tensor kind shape => simp [toDatum, flaw?, flawsOfItems_map Extent.flaws_toDatum]
  | map key value ih =>
      -- A kind is no list, so what stands behind it is no matter.
      have hrecord : flaw? (.record [key.toDatum, value.toDatum]) = none := by cases key <;> rfl
      rw [toDatum, Datum.flaws_variant, Datum.flaws_record, hrecord]
      simp [flaw?, ih]

@[simp] theorem Parameter.flaws_toDatum (p : Parameter) : p.toDatum.flaws = [] := by
  simp [toDatum, flaw?]

@[simp] theorem Signature.flaws_toDatum (s : Signature) : s.toDatum.flaws = [] := by
  simp [toDatum, flaw?, flawsOfItems_map Parameter.flaws_toDatum]

@[simp] theorem TensorData.flaws_toDatum (t : TensorData) : t.toDatum.flaws = [] := by
  cases t with
  | int64s values => simp [toDatum, flaw?, flawsOfItems_map Datum.flaws_int]
  | floats values => simp [toDatum, flaw?, flawsOfItems_map Datum.flaws_single]
  | strings values => simp [toDatum, flaw?, Datum.texts, flawsOfItems_map Datum.flaws_text]

/-! ## Flaws of expressions -/

theorem Tensor.flaw?_toDatum (t : Tensor) : t.toDatum.flaw? = misfit? t.dims t.data.size := by
  obtain ⟨dims, data⟩ := t
  have hdims : Datum.items? Datum.uint? (.list (dims.map .uint)) = some dims :=
    Datum.items?_map Datum.uint?_uint dims
  rw [Datum.items?] at hdims
  cases data <;> simp [toDatum, TensorData.toDatum, TensorData.size, flaw?, Datum.texts, hdims]

theorem Tensor.flaws_toDatum (t : Tensor) : t.toDatum.flaws = t.toDatum.flaw?.toList := by
  simp [toDatum, flawsOfItems_map Datum.flaws_uint]

theorem Value.flaws_toDatum (v : Value) : v.toDatum.flaws = (Expr.literal v).refusal?.toList := by
  cases v with
  | tensor t =>
      rw [Expr.refusal?_eq, toDatum, Datum.flaws_variant, t.flaws_toDatum, t.flaw?_toDatum]
      rfl
  | _ => rfl

namespace Expr

/-- The data show what the form lacks. Tensors show it further inside. -/
theorem flaw?_toDatum {e : Expr} (h : ∀ v, e ≠ .literal v) : e.toDatum.flaw? = e.refusal? := by
  cases e with
  | literal v => exact absurd rfl (h v)
  | bind bindings => cases bindings <;> rfl
  | loop inits _ _ _ => cases inits <;> rfl
  | branch _ _ elseBody => cases elseBody <;> rfl
  | access _ path fallback => cases path <;> cases fallback <;> rfl
  | _ => rfl

/-- What is left to show of an expression is what holds of all inside it. -/
theorem refusals_of_content {e : Expr} {index : Nat} {content : Datum} {inside : List Expr}
    (hparts : e.parts = e :: inside) (hdatum : e.toDatum = .variant index content)
    (hform : ∀ v, e ≠ .literal v) (hinside : inside.filterMap refusal? = content.flaws) :
    e.parts.filterMap refusal? = e.toDatum.flaws := by
  rw [hparts, filterMap_cons_toList, ← flaw?_toDatum hform, hinside, hdatum, Datum.flaws_variant]

mutual

/-- What the constructors refuse in an expression is what its data lack. -/
theorem refusals_parts : ∀ e : Expr, e.parts.filterMap refusal? = e.toDatum.flaws
  | .literal v => by
      simp [parts, toDatum, filterMap_cons_toList, flaw?, v.flaws_toDatum]
  | .variable _ | .function _ | .comment _ => rfl
  | .call target args =>
      refusals_of_content rfl rfl nofun (by
        simp [flaw?, refusals_parts target, refusals_partsOfAll args])
  | .bind bindings =>
      refusals_of_content rfl rfl nofun (by simp [refusals_partsOfBindings bindings])
  | .assign _ value =>
      refusals_of_content rfl rfl nofun (by simp [flaw?, refusals_parts value])
  | .loop inits condition body step =>
      refusals_of_content rfl rfl nofun (by
        simp [flaw?, refusals_partsOfBindings inits, refusals_parts condition,
          refusals_partsOfAll body, refusals_partsOfAll step])
  | .each _ sequence body =>
      refusals_of_content rfl rfl nofun (by
        simp [flaw?, refusals_parts sequence, refusals_partsOfAll body])
  | .branch condition thenBody none =>
      refusals_of_content rfl rfl nofun (by
        simp [flaw?, refusals_parts condition, refusals_partsOfAll thenBody])
  | .branch condition thenBody (some elseBody) =>
      refusals_of_content rfl rfl nofun (by
        simp [flaw?, refusals_parts condition, refusals_partsOfAll thenBody,
          refusals_partsOfAll elseBody])
  | .access container path none =>
      refusals_of_content rfl rfl nofun (by
        simp [flaw?, refusals_parts container, refusals_partsOfAll path])
  | .access container path (some fallback) =>
      refusals_of_content rfl rfl nofun (by
        simp [flaw?, refusals_parts container, refusals_partsOfAll path, refusals_parts fallback])
  | .lambda _ body =>
      refusals_of_content rfl rfl nofun (by
        simp [flaw?, refusals_partsOfAll body, flawsOfItems_map Parameter.flaws_toDatum])

theorem refusals_partsOfAll : ∀ es : List Expr,
    (partsOfAll es).filterMap refusal? = flawsOfItems (toData es)
  | [] => rfl
  | e :: rest => by
      rw [partsOfAll, toData, List.filterMap_append, Datum.flawsOfItems_cons,
        refusals_parts e, refusals_partsOfAll rest]

theorem refusals_partsOfBindings : ∀ bs : List Binding,
    (partsOfBindings bs).filterMap refusal? = flawsOfItems (bindingsToData bs)
  | [] => rfl
  | .mk _ value :: rest => by
      simp [partsOfBindings, bindingsToData, bindingToDatum, flaw?, refusals_parts value,
        refusals_partsOfBindings rest]

end

end Expr

/-! ## Flaws of models -/

theorem Function.flaws_toDatum (f : Function) :
    f.toDatum.flaws = (Expr.partsOfAll f.body).filterMap Expr.refusal? := by
  simp [toDatum, flaw?, flawsOfItems_map Parameter.flaws_toDatum, Expr.refusals_partsOfAll]

theorem Function.flawsOfItems_toDatum (functions : List Function) :
    flawsOfItems (functions.map toDatum) =
      (functions.flatMap fun f => Expr.partsOfAll f.body).filterMap Expr.refusal? := by
  induction functions with
  | nil => rfl
  | cons f rest ih =>
      rw [List.map_cons, Datum.flawsOfItems_cons, ih, f.flaws_toDatum, List.flatMap_cons,
        List.filterMap_append]

namespace Model

variable {m : Model}

theorem refusals_of_ofDatum? {d : Datum} (h : ofDatum? d = some m) : m.refusals = d.flaws := by
  obtain ⟨program, hprogram, rfl⟩ := exists_of_ofDatum? h
  obtain ⟨entries, -, rfl⟩ := Program.exists_of_ofDatum? hprogram
  have htypes : Datum.flawsOfEntries
      (entries.map fun e => (Datum.text e.1, e.2.toDatum)) = [] :=
    Datum.flawsOfEntries_map (fun _ => rfl) (fun e => e.2.flaws_toDatum) entries
  rw [refusals, expressions, List.filterMap_append, ← Function.flawsOfItems_toDatum,
    Expr.refusals_partsOfAll]
  simp [flaw?, htypes]

theorem decode_encode (h : ∀ d ∈ m.toDatum.subdata, d.Countable) : decode m.encode = .ok m := by
  have hread := Wire.decode_encode (show ∀ d ∈ (Wire.toDatum m).subdata, d.Countable from h) []
  rw [List.append_nil] at hread
  rw [decode, encode, hread]

theorem ofText_pretty {j : Json} (hj : Wire.toJson? m = some j) (hdepth : j.depth ≤ Datum.levels)
    (h : ∀ x ∈ m.toDatum.singles, x.reread = some x) : ofText j.pretty = .ok m := by
  have hread := Wire.ofText?_of_toJson? hj (by decide) h hdepth
  exact ofText_eq_ok_iff.mpr (hread _ (by simp))

/-- What is read has the flaws of the data that were read, one by one and no
others, whether the data stood in bytes or in a text. So every expression of a
model is one that its checked constructor gives exactly when every statement
with new names, every loop, every access and every tensor in the data has what
it has to have. The readers mend nothing, and they ask for nothing of the kind:
a model is read from its own bytes and its own text whatever it lacks. -/
theorem refusals_eq_flaws :
    (∀ bytes m, decode bytes = .ok m →
      ∃ d rest, Datum.decode .model bytes = .ok (d, rest) ∧ m.refusals = d.flaws
        ∧ ((∀ e ∈ m.expressions, e.rebuilt = .ok e) ↔ d.flaws = []))
    ∧ (∀ text m, ofText text = .ok m →
      ∃ j d, Json.parse? text = some j
        ∧ Datum.ofJson? Datum.levels (.entity .model) j = some d ∧ m.refusals = d.flaws
        ∧ ((∀ e ∈ m.expressions, e.rebuilt = .ok e) ↔ d.flaws = []))
    ∧ ∀ m : Model,
        ((∀ d ∈ m.toDatum.subdata, d.Countable) → decode m.encode = .ok m)
        ∧ ∀ j, Wire.toJson? m = some j → j.depth ≤ Datum.levels →
            (∀ x ∈ m.toDatum.singles, x.reread = some x) → ofText j.pretty = .ok m := by
  refine ⟨fun bytes m hm => ?bytes, fun text m hm => ?text,
    fun m => ⟨decode_encode, fun j => ofText_pretty⟩⟩
  case bytes =>
    obtain ⟨rest, hread⟩ := exists_of_decode hm
    obtain ⟨d, hd, hm⟩ := Wire.exists_of_decode hread
    have hflaws : m.refusals = d.flaws := refusals_of_ofDatum? hm
    exact ⟨d, rest, hd, hflaws, by rw [← hflaws, m.refusals_eq_nil_iff]⟩
  case text =>
    obtain ⟨j, hj, hread⟩ := Option.bind_eq_some_iff.mp (ofText_eq_ok_iff.mp hm)
    obtain ⟨d, hd, hm⟩ := Option.bind_eq_some_iff.mp hread
    have hflaws : m.refusals = d.flaws := refusals_of_ofDatum? hm
    exact ⟨j, d, hj, hd, hflaws, by rw [← hflaws, m.refusals_eq_nil_iff]⟩

/-- A model that has, one after the other, no name to introduce, no variable to
count, no path to follow and two cells for one element. -/
def flawed : Model :=
  { small with
    program :=
      { small.program with
        body :=
          [.bind [], .loop [] (.variable "x") [] [], .access (.variable "x") [] none,
           .literal (.tensor ⟨[2], .int64s [7]⟩)] } }

/-- Both forms of it are read, although the constructors refuse each statement. -/
theorem flawed_is_read :
    decode flawed.encode = .ok flawed ∧ (∃ text, ofText text = .ok flawed)
      ∧ flawed.refusals = [.emptyLet, .emptyLoop, .emptyPath, .shapeMismatch 2 1]
      ∧ ¬ ∀ bytes m, decode bytes = .ok m → ∀ e ∈ m.expressions, e.rebuilt = .ok e := by
  have hbytes : decode flawed.encode = .ok flawed := decode_encode (by decide +kernel)
  have htext : ∃ text, ofText text = .ok flawed := by
    obtain ⟨j, hj, -⟩ := exists_toJson?_deep flawed
    have hdepth : (Wire.toJson? flawed).map Json.depth = some 8 := by decide +kernel
    rw [hj, Option.map_some, Option.some.injEq] at hdepth
    exact ⟨j.pretty, ofText_pretty hj (show j.depth ≤ 127 by omega) (by decide +kernel)⟩
  have hrefusals : flawed.refusals =
      [.emptyLet, .emptyLoop, .emptyPath, .shapeMismatch 2 1] := by decide +kernel
  refine ⟨hbytes, htext, hrefusals, fun h => ?_⟩
  have hnone := flawed.refusals_eq_nil_iff.mpr (h _ _ hbytes)
  rw [hrefusals] at hnone
  cases hnone

end Model

end ModelExport
