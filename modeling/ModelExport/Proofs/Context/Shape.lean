import ModelExport.Proofs.Context.Registration
import ModelExport.Proofs.Extent

/-!
# Shapes of registered variables

A column type of which the raw kind has an element kind becomes a scalar or a
tensor, and the tensor's shape says how many items the column has in a row
(`Descriptor.ShapeFor`): an unknown number by an unbound extent that stands alone
behind the batch extent, any other by known extents that multiply to it. None of
these is zero, since a column with a zero extent has an unknown number of items.

The only types that a context holds are those of the columns that were
registered, so every type in a signature or a table of types is of this form
(`Call.types_suit_columns`).
-/

namespace ModelExport

/-! ## Shapes -/

/-- The extent, where it is known. -/
def Extent.known? : Extent → Option UInt64
  | .fixed n => some n
  | .unbound => none

theorem Extent.filterMap_known? (dims : List UInt64) :
    (dims.map Extent.fixed).filterMap Extent.known? = dims := by
  rw [List.filterMap_map]
  exact List.filterMap_some

namespace Descriptor

/-- The shape of a tensor that holds so many items of a row, zero standing for an unknown
number of them. -/
structure ShapeFor (count : UInt64) (shape : List Extent) : Prop where
  batched : ∃ extents, extents ≠ [] ∧ shape = .fixed 1 :: extents
  fixed_ne_zero : Extent.fixed 0 ∉ shape
  unbound_mem_iff : Extent.unbound ∈ shape ↔ count = 0
  eq_of_unbound : Extent.unbound ∈ shape → shape = [.fixed 1, .unbound]
  cells_known : Extent.unbound ∉ shape → cells (shape.filterMap Extent.known?) = count.toNat

/-- The descriptor is a scalar or a tensor for the items of a column of the type. -/
inductive Suits : Descriptor → ColumnType → Prop
  | scalar {item : Item} {kind : ElementKind} (hkind : item.rawKind.elementKind? = some kind) :
      Suits (.scalar kind) (.scalar item)
  | tensor {item : Item} {dims : List UInt64} {kind : ElementKind} {shape : List Extent}
      (hkind : item.rawKind.elementKind? = some kind)
      (hshape : ShapeFor (ColumnType.vector item dims).valueCount shape) :
      Suits (.tensor kind shape) (.vector item dims)

theorem shapeFor_unknown : ShapeFor 0 [.fixed 1, .unbound] where
  batched := ⟨[.unbound], by decide, rfl⟩
  fixed_ne_zero := by decide
  unbound_mem_iff := by decide
  eq_of_unbound _ := rfl
  cells_known h := absurd (by decide) h

/-- Known extents without a zero are a shape for their product. -/
theorem shapeFor_known {dims : List UInt64} {count : UInt64} (hne : dims ≠ [])
    (hzero : 0 ∉ dims) (hcells : cells dims = count.toNat) :
    ShapeFor count (.fixed 1 :: dims.map .fixed) := by
  have hunbound : Extent.unbound ∉ Extent.fixed 1 :: dims.map .fixed := by simp
  have hcount : count ≠ 0 := by
    rintro rfl
    exact hzero (cells_eq_zero_iff.mp hcells)
  refine ⟨⟨_, by simpa using hne, rfl⟩, by simpa using hzero, ?_, ?_, ?_⟩
  · exact iff_of_false hunbound hcount
  · exact fun h => absurd h hunbound
  · intro _
    rw [← List.map_cons, Extent.filterMap_known?, cells_cons, UInt64.toNat_one, Nat.one_mul, hcells]

end Descriptor

/-! ## From columns to shapes -/

theorem RawKind.elementKind?_isSome_iff (kind : RawKind) :
    kind.elementKind?.isSome = true ↔ kind ∈ [.boolean, .text, .uint32, .float32] := by
  cases kind <;> decide

namespace ColumnType

variable {item : Item} {dims : List UInt64} {kind : ElementKind}

theorem descriptor?_vector (h : item.rawKind.elementKind? = some kind) :
    (vector item dims).descriptor?
      = some (.batched kind (vectorExtents (vector item dims).valueCount dims)) := by
  rw [descriptor?, rawKind, ColumnType.item, h]
  rfl

theorem vectorExtents_of_lt {count : UInt64} (h : 1 < count.toNat) (dims : List UInt64) :
    vectorExtents count dims = dims.map .fixed := by
  have hzero : count ≠ 0 := by
    rintro rfl
    simp at h
  have hone : count ≠ 1 := by
    rintro rfl
    simp at h
  rw [vectorExtents, if_neg hzero, if_neg hone]

theorem shapeFor_vectorExtents (item : Item) (dims : List UInt64) :
    Descriptor.ShapeFor (vector item dims).valueCount
      (.batch :: vectorExtents (vector item dims).valueCount dims) := by
  by_cases hzero : (vector item dims).valueCount = 0
  · rw [hzero]
    exact Descriptor.shapeFor_unknown
  · rw [vectorExtents, if_neg hzero]
    split
    · next hone =>
        rw [hone]
        show Descriptor.ShapeFor 1 (.fixed 1 :: [1].map .fixed)
        exact Descriptor.shapeFor_known (by decide) (by decide) (by decide)
    · obtain ⟨hne, hnone, hcells⟩ := cells_of_valueCount_ne_zero hzero
      exact Descriptor.shapeFor_known hne hnone hcells

theorem suits_of_descriptor? {t : ColumnType} {d : Descriptor} (h : t.descriptor? = some d) :
    d.Suits t := by
  obtain ⟨kind, hkind, rfl⟩ := Option.map_eq_some_iff.mp h
  cases t with
  | scalar item => exact .scalar hkind
  | vector item dims => exact .tensor hkind (shapeFor_vectorExtents item dims)

/-- More items than one are described by the extents as they stand. -/
theorem descriptor?_vector_inj {item item' : Item} {dims dims' : List UInt64}
    (hkind : item.rawKind.elementKind? = some kind)
    (hkind' : item'.rawKind.elementKind? = some kind)
    (hmany : 1 < (vector item dims).valueCount.toNat)
    (hmany' : 1 < (vector item' dims').valueCount.toNat) :
    (vector item dims).descriptor? = (vector item' dims').descriptor? ↔ dims = dims' := by
  have hfixed : Function.Injective Extent.fixed := fun _ _ h => Extent.fixed.inj h
  rw [descriptor?_vector hkind, descriptor?_vector hkind', vectorExtents_of_lt hmany,
    vectorExtents_of_lt hmany']
  simp [Descriptor.batched, hfixed.list_map.eq_iff]

end ColumnType

namespace Call

/-! ## Registered variables -/

/-- The name is registered for a column of a type that the descriptor suits. -/
def RegisteredAs (registered : List (String × ColumnType)) (name : String) (d : Descriptor) :
    Prop :=
  ∃ t, (name, t) ∈ registered ∧ d.Suits t

theorem registeredAs_of_mem_types {calls : List Call} {e : String × Descriptor}
    (he : e ∈ (run calls {}).2.types.entries) :
    RegisteredAs (registrations calls (run calls {}).1) e.1 e.2 := by
  obtain ⟨-, added, hentries, hadded⟩ := run_typed Context.typed_empty calls
  have hall : (run calls {}).2.types.entries = added := hentries
  rw [hall] at he
  have hmem : (e.1, some e.2) ∈ added.map fun e => (e.1, some e.2) := List.mem_map_of_mem he
  rw [hadded] at hmem
  obtain ⟨⟨name, t⟩, hr, heq⟩ := List.mem_map.mp hmem
  obtain ⟨rfl, hd⟩ := Prod.mk.inj heq
  exact ⟨t, hr, ColumnType.suits_of_descriptor? hd⟩

theorem registeredAs_of_mem_parameters {calls : List Call} {p : Parameter}
    (hp : p ∈ (run calls {}).2.inputs ++ (run calls {}).2.outputs) :
    RegisteredAs (registrations calls (run calls {}).1) p.name p.type :=
  registeredAs_of_mem_types ((run_typed Context.typed_empty calls).1.parameters p hp)

/-- Four raw kinds have a descriptor, whatever the columns' keys and extents; it is a scalar or a
tensor of a shape for the items of the column; and where there are more items than one, it tells
the extents apart. In every context that calls can reach, the parameters and the typed variables
have the descriptors of the columns that they were registered for. -/
theorem types_suit_columns :
    (∀ t : ColumnType, t.descriptor?.isSome = true
        ↔ t.rawKind ∈ [.boolean, .text, .uint32, .float32])
    ∧ (∀ (t : ColumnType) (d : Descriptor), t.descriptor? = some d → d.Suits t)
    ∧ (∀ (item item' : Item) (dims dims' : List UInt64) (kind : ElementKind),
        item.rawKind.elementKind? = some kind → item'.rawKind.elementKind? = some kind →
        1 < (ColumnType.vector item dims).valueCount.toNat →
        1 < (ColumnType.vector item' dims').valueCount.toNat →
        ((ColumnType.vector item dims).descriptor? = (ColumnType.vector item' dims').descriptor?
          ↔ dims = dims'))
    ∧ ∀ calls : List Call,
        let registered := registrations calls (run calls {}).1
        (∀ p ∈ (run calls {}).2.inputs ++ (run calls {}).2.outputs,
          RegisteredAs registered p.name p.type)
        ∧ ∀ e ∈ (run calls {}).2.types.entries, RegisteredAs registered e.1 e.2 := by
  refine ⟨fun t => ?_, fun t d => ColumnType.suits_of_descriptor?, ?_, fun calls => ?_⟩
  · rw [ColumnType.descriptor?, Option.isSome_map]
    exact t.rawKind.elementKind?_isSome_iff
  · exact fun item item' dims dims' kind => ColumnType.descriptor?_vector_inj
  · exact ⟨fun p => registeredAs_of_mem_parameters, fun e => registeredAs_of_mem_types⟩

/-- Keys and flags in a matrix and in its transpose, and a vector without items. -/
theorem types_suit_columns_matrices :
    let keys : ColumnType := .vector (.key .uint32 7) [2, 5]
    let flags : ColumnType := .vector (.primitive .boolean) [5, 2]
    let calls : List Call := [.addInput keys "x", .addIntermediate (.vectorOf .text [3, 0]) "y"]
    keys.descriptor? ≠ flags.descriptor?
      ∧ (∃ d, keys.descriptor? = some d ∧ d.Suits keys)
      ∧ (run calls {}).2.types.names = ["x", "y"]
      ∧ ∀ e ∈ (run calls {}).2.types.entries,
          RegisteredAs (registrations calls (run calls {}).1) e.1 e.2 := by
  intro keys flags calls
  obtain ⟨-, hsuits, hinj, hrun⟩ := types_suit_columns
  refine ⟨fun h => ?_, ⟨_, rfl, hsuits keys _ rfl⟩, by decide +kernel, (hrun calls).2⟩
  exact absurd ((hinj _ _ _ _ .int64 rfl rfl (by decide) (by decide)).mp h) (by decide)

end Call

end ModelExport
