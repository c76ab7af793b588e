import ModelExport.Proofs.Wire.Fits
import ModelExport.Wire.Model

/-!
# Stored types

A stored type is lawful when the data of its values fit its entity and are
taken back to the values they came from. The law of a type is put together
from those of its parts; expressions and bindings, which contain each
other, have theirs by one mutual induction. `Model` is lawful in the end,
so whatever a notation keeps of data it keeps of models.
-/

namespace ModelExport

/-- The data of the values fit the entity and stand for the values. -/
class LawfulWire (α : Type) [Wire α] : Prop where
  fits (a : α) : Datum.Fits (.entity (Wire.entity α)) (Wire.toDatum a)
  ofDatum?_toDatum (a : α) : Wire.ofDatum? (Wire.toDatum a) = some a

namespace Datum

/-! ## Parts of data -/

theorem text?_text (s : String) : text? (.text s) = some s := rfl

theorem uint?_uint (n : UInt64) : uint? (.uint n) = some n := rfl

theorem int?_int (n : Int64) : int? (.int n) = some n := rfl

theorem single?_single (x : Single) : single? (.single x) = some x := rfl

theorem mapM_map_of_inverse {α β γ : Type} {f : β → Option γ} {g : α → β} {k : α → γ}
    (h : ∀ a, f (g a) = some (k a)) (l : List α) : (l.map g).mapM f = some (l.map k) := by
  induction l with
  | nil => rfl
  | cons a l ih => simp [List.mapM_cons, h, ih]

theorem items?_map {α : Type} {f : Datum → Option α} {g : α → Datum} (h : ∀ a, f (g a) = some a)
    (l : List α) : items? f (.list (l.map g)) = some l := by
  rw [items?, mapM_map_of_inverse (k := id) (by simpa using h), List.map_id]

theorem entries?_map {α β : Type} {key : Datum → Option α} {value : Datum → Option β}
    {f : α → Datum} {g : β → Datum} (hkey : ∀ a, key (f a) = some a)
    (hvalue : ∀ b, value (g b) = some b) (l : List (α × β)) :
    entries? key value (.table (l.map fun e => (f e.1, g e.2))) = some l := by
  rw [entries?, mapM_map_of_inverse (k := id) (by simp [hkey, hvalue]), List.map_id]

theorem fits_list_map {α : Type} {item : Shape} {g : α → Datum} (h : ∀ a, Fits item (g a))
    (l : List α) : Fits (.list item) (.list (l.map g)) :=
  .list fun d hd => by
    obtain ⟨a, -, rfl⟩ := List.mem_map.mp hd
    exact h a

theorem fits_ofPosition {α : Type} [DecidableEq α] {e : Entity} {all : List α} {name : α → String}
    (he : e.layout = .names (all.map name)) {a : α} (ha : a ∈ all) :
    Fits (.entity e) (ofPosition all a) := by
  have hlt : all.idxOf a < all.length := List.idxOf_lt_length_of_mem ha
  refine .variant (c := { name := name a, content := .empty }) he ?_ .empty
  simp [hlt]

/-- A required field in front of others. -/
theorem FieldsFit.required {field : Field} {fields : List Field} {d : Datum} {ds : List Datum}
    (hopt : field.optional = false) (h : Fits field.shape d) (hrest : FieldsFit fields ds) :
    FieldsFit (field :: fields) (d :: ds) := .cons (.required hopt h) hrest

end Datum

open Datum (Fits FieldsFit items?_map fits_list_map)

/-! ## Types of variables -/

namespace ElementKind

theorem mem_all (k : ElementKind) : k ∈ all := by
  cases k <;> decide

theorem fits_toDatum (k : ElementKind) : Fits (.entity .elementKind) k.toDatum :=
  Datum.fits_ofPosition rfl k.mem_all

@[simp] theorem ofDatum?_toDatum (k : ElementKind) : ofDatum? k.toDatum = some k :=
  Datum.position?_ofPosition k.mem_all

end ElementKind

namespace Extent

theorem fits_toDatum : ∀ x : Extent, Fits (.entity .extent) x.toDatum
  | .fixed n => .variant rfl rfl (.one (.uint n))
  | .unbound => .variant rfl rfl .empty

@[simp] theorem ofDatum?_toDatum (x : Extent) : ofDatum? x.toDatum = some x := by
  cases x <;> rfl

end Extent

namespace Descriptor

theorem fits_toDatum : ∀ t : Descriptor, Fits (.entity .descriptor) t.toDatum
  | .scalar kind => .variant rfl rfl (.one kind.fits_toDatum)
  | .tensor kind shape => .variant rfl rfl (.fields
      (.required rfl kind.fits_toDatum
        (.required rfl (fits_list_map Extent.fits_toDatum shape) .nil)))
  | .map key value => .variant rfl rfl (.fields
      (.required rfl key.fits_toDatum (.required rfl value.fits_toDatum .nil)))

@[simp] theorem ofDatum?_toDatum (t : Descriptor) : ofDatum? t.toDatum = some t := by
  induction t with
  | scalar kind => simp [toDatum, ofDatum?]
  | tensor kind shape => simp [toDatum, ofDatum?, items?_map Extent.ofDatum?_toDatum]
  | map key value ih => simp [toDatum, ofDatum?, ih]

end Descriptor

/-! ## Literals -/

namespace TensorData

theorem fits_toDatum : ∀ t : TensorData, Fits (.entity .tensorData) t.toDatum
  | .int64s values => .variant rfl rfl (.one (fits_list_map .int values))
  | .floats values => .variant rfl rfl (.one (fits_list_map .single values))
  | .strings values => .variant rfl rfl (.one (fits_list_map .text values))

@[simp] theorem ofDatum?_toDatum (t : TensorData) : ofDatum? t.toDatum = some t := by
  cases t with
  | int64s values => simp [toDatum, ofDatum?, items?_map Datum.int?_int]
  | floats values => simp [toDatum, ofDatum?, items?_map Datum.single?_single]
  | strings values => simp [toDatum, ofDatum?, Datum.texts, items?_map Datum.text?_text]

end TensorData

namespace Tensor

theorem fits_toDatum (t : Tensor) : Fits (.entity .tensor) t.toDatum :=
  .record rfl (.required rfl (fits_list_map .uint t.dims)
    (.required rfl t.data.fits_toDatum .nil))

@[simp] theorem ofDatum?_toDatum (t : Tensor) : ofDatum? t.toDatum = some t := by
  simp [toDatum, ofDatum?, items?_map Datum.uint?_uint]

end Tensor

namespace Value

theorem fits_toDatum : ∀ v : Value, Fits (.entity .value) v.toDatum
  | .int64 n => .variant rfl rfl (.one (.int n))
  | .float x => .variant rfl rfl (.one (.single x))
  | .string s => .variant rfl rfl (.one (.text s))
  | .tensor t => .variant rfl rfl (.one t.fits_toDatum)

@[simp] theorem ofDatum?_toDatum (v : Value) : ofDatum? v.toDatum = some v := by
  cases v <;> simp [toDatum, ofDatum?]

end Value

/-! ## Expressions -/

namespace Parameter

theorem fits_toDatum (p : Parameter) : Fits (.entity .parameter) p.toDatum :=
  .record rfl (.required rfl (.text p.name) (.required rfl p.type.fits_toDatum
    (.required rfl (.text p.doc) (.required rfl (.bool p.variadic) .nil))))

@[simp] theorem ofDatum?_toDatum (p : Parameter) : ofDatum? p.toDatum = some p := by
  simp [toDatum, ofDatum?]

end Parameter

namespace Expr

mutual

theorem fits_toDatum : ∀ e : Expr, Fits (.entity .expression) e.toDatum
  | .literal value => .variant rfl rfl (.one value.fits_toDatum)
  | .variable name => .variant rfl rfl (.one (.text name))
  | .function name => .variant rfl rfl (.one (.text name))
  | .call target args => .variant rfl rfl (.fields
      (.required rfl target.fits_toDatum (.required rfl (.list (fits_toData args)) .nil)))
  | .bind bindings => .variant rfl rfl (.one (.list (fits_bindingsToData bindings)))
  | .assign name value => .variant rfl rfl (.fields
      (.required rfl (.text name) (.required rfl value.fits_toDatum .nil)))
  | .loop inits condition body step => .variant rfl rfl (.fields
      (.required rfl (.list (fits_bindingsToData inits))
        (.required rfl condition.fits_toDatum (.required rfl (.list (fits_toData body))
          (.required rfl (.list (fits_toData step)) .nil)))))
  | .each iterator sequence body => .variant rfl rfl (.fields
      (.required rfl (.text iterator) (.required rfl sequence.fits_toDatum
        (.required rfl (.list (fits_toData body)) .nil))))
  | .branch condition thenBody none => .variant rfl rfl (.fields
      (.required rfl condition.fits_toDatum (.required rfl (.list (fits_toData thenBody))
        (.cons (.absent rfl) .nil))))
  | .branch condition thenBody (some elseBody) => .variant rfl rfl (.fields
      (.required rfl condition.fits_toDatum (.required rfl (.list (fits_toData thenBody))
        (.cons (.present rfl (.list (fits_toData elseBody))) .nil))))
  | .access container path none => .variant rfl rfl (.fields
      (.required rfl container.fits_toDatum (.required rfl (.list (fits_toData path))
        (.cons (.absent rfl) .nil))))
  | .access container path (some fallback) => .variant rfl rfl (.fields
      (.required rfl container.fits_toDatum (.required rfl (.list (fits_toData path))
        (.cons (.present rfl fallback.fits_toDatum) .nil))))
  | .lambda params body => .variant rfl rfl (.fields
      (.required rfl (fits_list_map Parameter.fits_toDatum params)
        (.required rfl (.list (fits_toData body)) .nil)))
  | .comment text => .variant rfl rfl (.one (.text text))

theorem fits_toData : ∀ es : List Expr, ∀ d ∈ toData es, Fits (.entity .expression) d
  | [], _, h => nomatch h
  | e :: rest, d, h => by
      rcases List.mem_cons.mp h with rfl | h
      · exact e.fits_toDatum
      · exact fits_toData rest d h

theorem fits_bindingToDatum : ∀ b : Binding, Fits (.entity .binding) (bindingToDatum b)
  | .mk name value =>
      .record rfl (.required rfl (.text name) (.required rfl value.fits_toDatum .nil))

theorem fits_bindingsToData :
    ∀ bs : List Binding, ∀ d ∈ bindingsToData bs, Fits (.entity .binding) d
  | [], _, h => nomatch h
  | b :: rest, d, h => by
      rcases List.mem_cons.mp h with rfl | h
      · exact fits_bindingToDatum b
      · exact fits_bindingsToData rest d h

end

mutual

@[simp] theorem ofDatum?_toDatum : ∀ e : Expr, ofDatum? e.toDatum = some e
  | .literal value => by simp [toDatum, ofDatum?]
  | .variable name => rfl
  | .function name => rfl
  | .call target args => by simp [toDatum, ofDatum?, ofDatum?_toDatum target, ofData?_toData args]
  | .bind bindings => by simp [toDatum, ofDatum?, bindingsOfData?_bindingsToData bindings]
  | .assign name value => by simp [toDatum, ofDatum?, ofDatum?_toDatum value]
  | .loop inits condition body step => by
      simp [toDatum, ofDatum?, bindingsOfData?_bindingsToData inits, ofDatum?_toDatum condition,
        ofData?_toData body, ofData?_toData step]
  | .each iterator sequence body => by
      simp [toDatum, ofDatum?, ofDatum?_toDatum sequence, ofData?_toData body]
  | .branch condition thenBody none => by
      simp [toDatum, ofDatum?, ofDatum?_toDatum condition, ofData?_toData thenBody]
  | .branch condition thenBody (some elseBody) => by
      simp [toDatum, ofDatum?, ofDatum?_toDatum condition, ofData?_toData thenBody,
        ofData?_toData elseBody]
  | .access container path none => by
      simp [toDatum, ofDatum?, ofDatum?_toDatum container, ofData?_toData path]
  | .access container path (some fallback) => by
      simp [toDatum, ofDatum?, ofDatum?_toDatum container, ofData?_toData path,
        ofDatum?_toDatum fallback]
  | .lambda params body => by
      simp [toDatum, ofDatum?, items?_map Parameter.ofDatum?_toDatum, ofData?_toData body]
  | .comment text => rfl

@[simp] theorem ofData?_toData : ∀ es : List Expr, ofData? (toData es) = some es
  | [] => rfl
  | e :: rest => by simp [toData, ofData?, ofDatum?_toDatum e, ofData?_toData rest]

@[simp] theorem bindingsOfData?_bindingsToData :
    ∀ bs : List Binding, bindingsOfData? (bindingsToData bs) = some bs
  | [] => rfl
  | .mk name value :: rest => by
      simp [bindingsToData, bindingToDatum, bindingsOfData?, ofDatum?_toDatum value,
        bindingsOfData?_bindingsToData rest]

end

end Expr

/-! ## Models -/

namespace Signature

theorem fits_toDatum (s : Signature) : Fits (.entity .signature) s.toDatum :=
  .record rfl (.required rfl (fits_list_map Parameter.fits_toDatum s.inputs)
    (.required rfl (fits_list_map Parameter.fits_toDatum s.outputs) .nil))

@[simp] theorem ofDatum?_toDatum (s : Signature) : ofDatum? s.toDatum = some s := by
  simp [toDatum, ofDatum?, items?_map Parameter.ofDatum?_toDatum]

end Signature

namespace Function

theorem fits_toDatum (f : Function) : Fits (.entity .function) f.toDatum :=
  .record rfl (.required rfl (.text f.name)
    (.required rfl (fits_list_map Parameter.fits_toDatum f.inputs)
      (.required rfl (fits_list_map Parameter.fits_toDatum f.outputs)
        (.required rfl (.list (Expr.fits_toData f.body)) .nil))))

@[simp] theorem ofDatum?_toDatum (f : Function) : ofDatum? f.toDatum = some f := by
  simp [toDatum, ofDatum?, items?_map Parameter.ofDatum?_toDatum]

end Function

namespace Table

theorem fits_toDatum (t : Table Descriptor) :
    Fits (.table .text (.entity .descriptor)) t.toDatum := by
  refine .table ?_ ?_
  · intro d hd
    obtain ⟨e, -, rfl⟩ := List.mem_map.mp hd
    exact .text e.1
  · intro d hd
    obtain ⟨e, -, rfl⟩ := List.mem_map.mp hd
    exact e.2.fits_toDatum

/-- No name occurs twice, so each entry is written to a place of its own again. -/
@[simp] theorem ofDatum?_toDatum (t : Table Descriptor) : ofDatum? t.toDatum = some t := by
  rw [toDatum, ofDatum?, Datum.entries?_map Datum.text?_text Descriptor.ofDatum?_toDatum,
    Option.map_some, ofList_entries]

end Table

namespace Program

theorem fits_toDatum (p : Program) : Fits (.entity .program) p.toDatum :=
  .record rfl (.required rfl (.text p.name) (.required rfl p.signature.fits_toDatum
    (.required rfl (.list (Expr.fits_toData p.body))
      (.required rfl (fits_list_map Function.fits_toDatum p.functions)
        (.required rfl p.types.fits_toDatum .nil)))))

@[simp] theorem ofDatum?_toDatum (p : Program) : ofDatum? p.toDatum = some p := by
  simp [toDatum, ofDatum?, items?_map Function.ofDatum?_toDatum]

end Program

namespace Model

theorem fits_toDatum (m : Model) : Fits (.entity .model) m.toDatum :=
  .record rfl (.required rfl (.int m.irVersion) (.required rfl (.text m.producerName)
    (.required rfl (.text m.producerVersion) (.required rfl (.text m.domain)
      (.required rfl (.int m.modelVersion) (.required rfl m.program.fits_toDatum .nil))))))

@[simp] theorem ofDatum?_toDatum (m : Model) : ofDatum? m.toDatum = some m := by
  simp [toDatum, ofDatum?]

end Model

/-! ## Lawful types -/

instance : LawfulWire Value := ⟨Value.fits_toDatum, Value.ofDatum?_toDatum⟩

instance : LawfulWire Model := ⟨Model.fits_toDatum, Model.ofDatum?_toDatum⟩

end ModelExport
