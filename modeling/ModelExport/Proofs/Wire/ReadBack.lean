import ModelExport.Proofs.Json.Single
import ModelExport.Proofs.Wire.Binary
import ModelExport.Proofs.Wire.Stored
import ModelExport.Proofs.Wire.Text

/-!
# Stored values come back

What is stored of a lawful type is read back: its bytes whatever follows
them (`Wire.decode_encode`), its tree as long as it nests no deeper than
the reader goes (`Wire.exists_toJson`).

Numbers of 32 bits stand in literals, alone or as the elements of a
tensor. Neither literal nests deeply, and all that its text loses is which
of the values that are no number was meant (`Value.ofText?_float`,
`Value.ofText?_floats`).
-/

namespace ModelExport

namespace Wire

variable {α : Type} [Wire α] [LawfulWire α]

theorem decode_encode {a : α} (h : ∀ d ∈ (toDatum a).subdata, d.Countable) (rest : List UInt8) :
    decode (encode a ++ rest) = .ok (a, rest) := by
  have hback : (ofDatum? (toDatum a) : Option α) = some a := LawfulWire.ofDatum?_toDatum a
  rw [decode, encode, Datum.decode_encode (LawfulWire.fits a) h]
  simp only [bind, Except.bind, hback]
  rfl

/-- A value has a tree, and the tree is read back within its depth. -/
theorem exists_toJson (a : α) (hkeyed : entity α ≠ .roles)
    (h : ∀ x ∈ (toDatum a).singles, x.reread = some x) :
    ∃ j, toJson? a = some j
      ∧ ∀ budget, (ofJson? budget j : Option α) = if j.depth ≤ budget then some a else none := by
  have hlegible : Datum.Legible (toDatum a).subdata := fun x hx => by
    rw [← x.reread_eq]
    exact h x (Datum.mem_singles hx)
  obtain ⟨j, hj⟩ := (LawfulWire.fits a).hasTree (decide_eq_true hkeyed) hlegible
  refine ⟨j, hj.toJson?, fun budget => ?_⟩
  rw [ofJson?, hj.ofJson?]
  exact Datum.bind_within_some (LawfulWire.ofDatum?_toDatum a)

/-- A tree that is not deep is read back from either of its texts. -/
theorem ofText?_of_toJson? {a : α} {j : Json} (hj : toJson? a = some j)
    (hkeyed : entity α ≠ .roles) (h : ∀ x ∈ (toDatum a).singles, x.reread = some x)
    (hdepth : j.depth ≤ Datum.levels) :
    ∀ text ∈ [j.compact, j.pretty], ofText? text = some a := by
  obtain ⟨_, hj', hread⟩ := exists_toJson a hkeyed h
  obtain rfl := Option.some.inj (hj.symm.trans hj')
  have htree : (ofJson? Datum.levels j : Option α) = some a := (hread _).trans (if_pos hdepth)
  simp [ofText?, Json.parse?_compact, Json.parse?_pretty, htree]

end Wire

namespace Datum

theorem itemsToJson?_map {α : Type} {item : Shape} {f : α → Datum} {g : α → Json}
    (h : ∀ a, toJson? item (f a) = some (g a)) (l : List α) :
    itemsToJson? item (l.map f) = some (l.map g) := by
  induction l with
  | nil => rfl
  | cons a l ih => simp [itemsToJson?, h, ih]

theorem subdataOfItems_map {α : Type} {f : α → Datum} (h : ∀ a, (f a).subdata = [f a])
    (l : List α) : subdataOfItems (l.map f) = l.map f := by
  induction l with
  | nil => rfl
  | cons a l ih => simp [subdataOfItems, h, ih]

end Datum

theorem Json.depthItems_eq_zero {js : List Json} (h : ∀ j ∈ js, j.depth = 0) :
    depthItems js = 0 := by
  induction js with
  | nil => rfl
  | cons j js ih =>
      rw [depthItems, h j (by simp), ih fun j hj => h j (by simp [hj])]
      rfl

namespace Value

theorem toJson?_float (x : Single) :
    Wire.toJson? (Value.float x) = some (.object [("Float", x.toJson)]) := rfl

theorem toJson?_floats (dims : List UInt64) (xs : List Single) :
    Wire.toJson? (Value.tensor ⟨dims, .floats xs⟩)
      = some (.object [("Tensor", .object [("dims", .arr (dims.map fun n => .ofNat n.toNat)),
          ("data", .object [("Floats", .arr (xs.map Single.toJson))])])]) := by
  have hdims : Datum.itemsToJson? .uint (dims.map .uint)
      = some (dims.map fun n => .ofNat n.toNat) := Datum.itemsToJson?_map (fun _ => rfl) dims
  have hxs : Datum.itemsToJson? .single (xs.map .single) = some (xs.map Single.toJson) :=
    Datum.itemsToJson?_map (fun _ => rfl) xs
  simp [Wire.toJson?, Wire.entity, Wire.toDatum, toDatum, Tensor.toDatum, TensorData.toDatum,
    Datum.toJson?, Datum.fieldsToJson?, Entity.layout, hdims, hxs, Json.object]

theorem singles_floats (dims : List UInt64) (xs : List Single) :
    (Wire.toDatum (Value.tensor ⟨dims, .floats xs⟩)).singles = xs := by
  have hdims : Datum.subdataOfItems (dims.map .uint) = dims.map .uint :=
    Datum.subdataOfItems_map (fun _ => rfl) dims
  have hxs : Datum.subdataOfItems (xs.map .single) = xs.map .single :=
    Datum.subdataOfItems_map (fun _ => rfl) xs
  simp [Wire.toDatum, toDatum, Tensor.toDatum, TensorData.toDatum, Datum.singles, Datum.subdata,
    Datum.subdataOfItems, Datum.single?, List.filterMap_cons, List.filterMap_map,
    Function.comp_def, hdims, hxs]

/-- A number alone. -/
theorem ofText?_float (x : Single) :
    ∃ j, Wire.toJson? (Value.float x) = some j
      ∧ ∀ text ∈ [j.compact, j.pretty], Wire.ofText? text = some (Value.float x.named) := by
  refine ⟨_, toJson?_float x, Wire.ofText?_of_toJson? ?_ (by decide) ?_ ?_⟩
  · rw [toJson?_float, x.toJson_named]
  · simpa [Datum.singles, Wire.toDatum, toDatum, Datum.subdata, Datum.single?]
      using x.reread_named
  · simp [Json.object, Json.depth, Json.depthFields, x.depth_toJson, Datum.levels]

/-- The elements of a tensor, whatever extents it has. -/
theorem ofText?_floats (dims : List UInt64) (xs : List Single) :
    ∃ j, Wire.toJson? (Value.tensor ⟨dims, .floats xs⟩) = some j
      ∧ ∀ text ∈ [j.compact, j.pretty],
          Wire.ofText? text = some (Value.tensor ⟨dims, .floats (xs.map Single.named)⟩) := by
  have hsame : Single.toJson ∘ Single.named = Single.toJson := funext Single.toJson_named
  refine ⟨_, toJson?_floats dims xs, Wire.ofText?_of_toJson? ?_ (by decide) ?_ ?_⟩
  · rw [toJson?_floats, List.map_map, hsame]
  · rw [singles_floats]
    simpa using fun x _ => x.reread_named
  · have hdims : Json.depthItems (dims.map fun n => .ofNat n.toNat) = 0 :=
      Json.depthItems_eq_zero (by simp [Json.ofNat, Json.depth])
    have hxs : Json.depthItems (xs.map Single.toJson) = 0 :=
      Json.depthItems_eq_zero (by simp [Single.depth_toJson])
    simp [Json.object, Json.depth, Json.depthFields, hdims, hxs, Datum.levels]

/-- A number, and the value `nan`, comes back bit for bit from either text
of a literal, alone or wherever it stands in a tensor. -/
theorem ofText?_number (x : Single) (h : x.isNaN = false ∨ x = .nan) :
    x.reread = some x
      ∧ (∃ j, Wire.toJson? (float x) = some j
          ∧ ∀ text ∈ [j.compact, j.pretty], Wire.ofText? text = some (float x))
      ∧ ∀ (dims : List UInt64) (xs : List Single), ∃ j ys,
          Wire.toJson? (tensor ⟨dims, .floats xs⟩) = some j
            ∧ (∀ text ∈ [j.compact, j.pretty],
                Wire.ofText? text = some (tensor ⟨dims, .floats ys⟩))
            ∧ ys.length = xs.length ∧ ∀ i : Nat, xs[i]? = some x → ys[i]? = some x := by
  have hnamed : x.named = x := x.named_eq_iff.mpr h
  refine ⟨x.reread_eq_some_iff.mpr h, ?_, fun dims xs => ?_⟩
  · have hfloat := ofText?_float x
    rwa [hnamed] at hfloat
  · obtain ⟨j, hj, htext⟩ := ofText?_floats dims xs
    refine ⟨j, xs.map Single.named, hj, htext, List.length_map _, fun i hi => ?_⟩
    rw [List.getElem?_map, hi, Option.map_some, hnamed]

/-- The number with the decimal that is nearest to a midpoint without
being one, in a tensor with a value that comes back as another one. -/
theorem ofText?_number_near_midpoint :
    (⟨0x15ae43fd⟩ : Single).isNaN = false
      ∧ Wire.ofText? "\x7b\x22Float\x22:7.038531e-26\x7d" = some (float ⟨0x15ae43fd⟩)
      ∧ ∃ j ys, Wire.toJson? (tensor ⟨[2], .floats [⟨0xffc00001⟩, ⟨0x15ae43fd⟩]⟩) = some j
        ∧ Wire.ofText? j.pretty = some (tensor ⟨[2], .floats ys⟩)
        ∧ ys[1]? = some ⟨0x15ae43fd⟩ := by
  have hnumber : (⟨0x15ae43fd⟩ : Single).isNaN = false := by decide
  obtain ⟨-, ⟨j, hj, htext⟩, htensor⟩ := ofText?_number ⟨0x15ae43fd⟩ (.inl hnumber)
  refine ⟨hnumber, htext _ ?_, ?_⟩
  · have hcompact : (Wire.toJson? (float ⟨0x15ae43fd⟩)).map Json.compact
        = some "\x7b\x22Float\x22:7.038531e-26\x7d" := by decide +kernel
    rw [hj] at hcompact
    rw [← Option.some.inj hcompact]
    exact List.mem_cons_self
  · obtain ⟨j', ys, hj', htext', -, hys⟩ := htensor [2] [⟨0xffc00001⟩, ⟨0x15ae43fd⟩]
    exact ⟨j', ys, hj', htext' _ (by simp), hys 1 rfl⟩

end Value

end ModelExport
