import Mathlib.Data.List.Nodup
import ModelExport.Proofs.Wire.Text

/-!
# Other spellings of a tree

One datum may be written in many ways. `Datum.Respells` relates a tree to
those that differ from it only inside the objects that stand for records:
the fields in another order, with unknown ones among them, without those
that hold what leaving them out means. Tables and the objects that name a
case keep their keys. A reader gives the same datum for all of them
(`Datum.Respells.kept`).

The fields that are read of an object are the relation `Datum.FieldsRead`;
an order matters to it only by the order of what is read, which the
arrangement by name takes away again.
-/

namespace ModelExport

/-- A datum of the shape with nothing inside. -/
def Datum.bare : Shape → Datum → Bool
  | .bool, .bool _ | .text, .text _ | .list _, .list [] | .table _ _, .table [] => true
  | _, _ => false

/-- What leaving the field out means is what the field may hold, and has nothing inside. -/
def Field.defaultBare (f : Field) : Bool :=
  match f.missing? with
  | none => true
  | some d =>
      if f.optional then
        match d with
        | .absent => true
        | _ => false
      else Datum.bare f.shape d

namespace Content

/-- The fields that a case holds. -/
def fieldList : Content → List Field
  | .fields fs => fs
  | _ => []

end Content

/-- The case that a name stands for. -/
theorem Form.exists_case {form : Form} {name : String} {index : Nat} {content : Content}
    (h : form.case? name = some (index, content)) :
    ∃ cases, form = .choice cases ∧ ∃ c ∈ cases, c.content = content := by
  unfold case? at h
  split at h
  · cases h
  · next cases =>
      split at h
      · obtain ⟨c, hc, heq⟩ := Option.map_eq_some_iff.mp h
        exact ⟨cases, rfl, c, List.mem_of_getElem? hc, (Prod.mk.inj heq).2⟩
      · cases h

namespace Entity

variable {e : Entity} {fields : List Field} {cases : List Case}

theorem defaultBare_of_record (h : e.layout = .record fields) :
    ∀ f ∈ fields, f.defaultBare = true := by
  cases e <;> cases h <;> decide

theorem defaultBare_of_choice (h : e.layout = .choice cases) :
    ∀ c ∈ cases, ∀ f ∈ c.content.fieldList, f.defaultBare = true := by
  cases e <;> cases h <;> decide

variable {name : String} {index : Nat}

theorem nodup_of_case (h : e.layout.case? name = some (index, .fields fields)) :
    (fields.map (·.name)).Nodup := by
  obtain ⟨cases, he, c, hc, hcontent⟩ := Form.exists_case h
  have hnodup := nodup_contentNames he c hc
  rwa [hcontent] at hnodup

theorem defaultBare_of_case (h : e.layout.case? name = some (index, .fields fields)) :
    ∀ f ∈ fields, f.defaultBare = true := by
  obtain ⟨cases, he, c, hc, hcontent⟩ := Form.exists_case h
  have hbare := defaultBare_of_choice he c hc
  rwa [hcontent] at hbare

end Entity

namespace Datum

/-! ## The relation -/

mutual

/-- The trees differ in how the objects in them that stand for records are written. -/
inductive Respells : Shape → Json → Json → Prop
  | refl {s : Shape} (j : Json) : Respells s j j
  | list {item : Shape} {js js' : List Json} (h : ItemsRespell item js js') :
      Respells (.list item) (.arr js) (.arr js')
  | table {key value : Shape} {given given' : List (Json.Text × Json)}
      (h : EntriesRespell value given given') :
      Respells (.table key value) (.obj given) (.obj given')
  | record {e : Entity} {fields : List Field} {given given' : List (Json.Text × Json)}
      (he : e.layout = .record fields) (h : FieldsRespell fields given given') :
      Respells (.entity e) (.obj given) (.obj given')
  | one {e : Entity} {name : String} {index : Nat} {shape : Shape} {j j' : Json}
      (hcase : e.layout.case? name = some (index, .one shape)) (h : Respells shape j j') :
      Respells (.entity e) (.object [(name, j)]) (.object [(name, j')])
  | fields {e : Entity} {name : String} {index : Nat} {fields : List Field}
      {given given' : List (Json.Text × Json)}
      (hcase : e.layout.case? name = some (index, .fields fields))
      (h : FieldsRespell fields given given') :
      Respells (.entity e) (.object [(name, .obj given)]) (.object [(name, .obj given')])

inductive ItemsRespell : Shape → List Json → List Json → Prop
  | nil {item : Shape} : ItemsRespell item [] []
  | cons {item : Shape} {j j' : Json} {js js' : List Json} (h : Respells item j j')
      (hrest : ItemsRespell item js js') : ItemsRespell item (j :: js) (j' :: js')

/-- A table keeps its keys. -/
inductive EntriesRespell : Shape → List (Json.Text × Json) → List (Json.Text × Json) → Prop
  | nil {value : Shape} : EntriesRespell value [] []
  | cons {value : Shape} {key : Json.Text} {j j' : Json} {given given' : List (Json.Text × Json)}
      (h : Respells value j j') (hrest : EntriesRespell value given given') :
      EntriesRespell value ((key, j) :: given) ((key, j') :: given')

inductive FieldsRespell :
    List Field → List (Json.Text × Json) → List (Json.Text × Json) → Prop
  | nil {fields : List Field} : FieldsRespell fields [] []
  | keep {fields : List Field} {f : Field} {j j' : Json} {given given' : List (Json.Text × Json)}
      (hf : f ∈ fields) (h : Respells f.shape j j') (hrest : FieldsRespell fields given given') :
      FieldsRespell fields ((some f.name, j) :: given) ((some f.name, j') :: given')
  /-- A field that no field of the record is named for may hold anything. -/
  | insert {fields : List Field} {name : String} {j : Json}
      {given given' : List (Json.Text × Json)} (hname : name ∉ fields.map (·.name))
      (hrest : FieldsRespell fields given given') :
      FieldsRespell fields given ((some name, j) :: given')
  /-- A field that holds what leaving it out means. -/
  | omit {fields : List Field} {f : Field} {d : Datum} {j : Json}
      {given given' : List (Json.Text × Json)} (hf : f ∈ fields) (hd : f.missing? = some d)
      (hj : fieldToJson? f d = some j) (hrest : FieldsRespell fields given given') :
      FieldsRespell fields ((some f.name, j) :: given) given'
  | permute {fields : List Field} {given given' given'' : List (Json.Text × Json)}
      (h : FieldsRespell fields given given') (hperm : given'.Perm given'') :
      FieldsRespell fields given given''

end

/-! ## What is read of an object -/

/-- The data under the names of the fields, in the order of the object. -/
inductive FieldsRead (budget : Nat) (fields : List Field) :
    List (Json.Text × Json) → List (String × Datum) → Prop
  | nil : FieldsRead budget fields [] []
  | skip {name : String} {j : Json} {given : List (Json.Text × Json)}
      {read : List (String × Datum)} (hname : name ∉ fields.map (·.name))
      (hrest : FieldsRead budget fields given read) :
      FieldsRead budget fields ((some name, j) :: given) read
  | field {f : Field} {j : Json} {d : Datum} {given : List (Json.Text × Json)}
      {read : List (String × Datum)} (hf : f ∈ fields) (hd : fieldOfJson? budget f j = some d)
      (hfresh : read.lookup f.name = none) (hrest : FieldsRead budget fields given read) :
      FieldsRead budget fields ((some f.name, j) :: given) ((f.name, d) :: read)

section FieldsRead

variable {budget : Nat} {fields : List Field} {given given' : List (Json.Text × Json)}
  {read : List (String × Datum)}

theorem find?_eq_none_iff {name : String} :
    fields.find? (·.name = name) = none ↔ name ∉ fields.map (·.name) := by
  simp

theorem fieldsRead_of_fieldsOfJson? (h : fieldsOfJson? budget fields given = some read) :
    FieldsRead budget fields given read := by
  induction given generalizing read with
  | nil =>
      cases h
      exact .nil
  | cons field given ih =>
      obtain ⟨_ | name, j⟩ := field
      · cases h
      cases hfind : fields.find? (·.name = name) with
      | none =>
          rw [fieldsOfJson?, hfind] at h
          exact .skip (find?_eq_none_iff.mp hfind) (ih h)
      | some f =>
          obtain rfl : f.name = name := by simpa using List.find?_some hfind
          rw [fieldsOfJson?_cons hfind] at h
          simp only [Option.bind_eq_bind, Option.bind_eq_some_iff] at h
          obtain ⟨d, hd, read, hread, hfresh⟩ := h
          split at hfresh
          · cases hfresh
          · next hnone =>
              cases hfresh
              exact .field (List.mem_of_find?_eq_some hfind) hd
                (Option.not_isSome_iff_eq_none.mp hnone) (ih hread)

theorem FieldsRead.fieldsOfJson? (hnodup : (fields.map (·.name)).Nodup)
    (h : FieldsRead budget fields given read) :
    fieldsOfJson? budget fields given = some read := by
  induction h with
  | nil => rfl
  | skip hname _ ih => rw [Datum.fieldsOfJson?, find?_eq_none_iff.mpr hname, ih]
  | field hf hd hfresh _ ih =>
      rw [fieldsOfJson?_cons (find?_of_nodup hnodup hf), hd, ih]
      simp [hfresh]

/-- Of an object that starts with a field of the record. -/
theorem FieldsRead.of_name_mem (hnodup : (fields.map (·.name)).Nodup) {f : Field}
    (hf : f ∈ fields) {j : Json} (h : FieldsRead budget fields ((some f.name, j) :: given) read) :
    ∃ d rest, read = (f.name, d) :: rest ∧ fieldOfJson? budget f j = some d
      ∧ rest.lookup f.name = none ∧ FieldsRead budget fields given rest := by
  generalize hname : f.name = name at h
  cases h with
  | skip hnot _ => exact absurd (hname ▸ List.mem_map_of_mem hf) hnot
  | field hg hd hfresh hrest =>
      obtain rfl := List.inj_on_of_nodup_map hnodup hf hg hname
      exact ⟨_, _, rfl, hd, hfresh, hrest⟩

/-- The order of the fields decides only the order of what is read. -/
theorem FieldsRead.perm (h : FieldsRead budget fields given read) (hperm : given.Perm given') :
    ∃ read', FieldsRead budget fields given' read'
      ∧ ∀ name, read'.lookup name = read.lookup name := by
  induction hperm generalizing read with
  | nil => exact ⟨read, h, fun _ => rfl⟩
  | cons _ _ ih =>
      cases h with
      | skip hname hrest =>
          obtain ⟨read', hread', hlookup⟩ := ih hrest
          exact ⟨read', .skip hname hread', hlookup⟩
      | field hf hd hfresh hrest =>
          obtain ⟨read', hread', hlookup⟩ := ih hrest
          exact ⟨_, .field hf hd ((hlookup _).trans hfresh) hread', fun name => by
            rw [List.lookup_cons, List.lookup_cons, hlookup]⟩
  | swap _ _ _ =>
      cases h with
      | skip hname hrest =>
          cases hrest with
          | skip hname' hrest => exact ⟨_, .skip hname' (.skip hname hrest), fun _ => rfl⟩
          | field hf hd hfresh hrest =>
              exact ⟨_, .field hf hd hfresh (.skip hname hrest), fun _ => rfl⟩
      | field hf hd hfresh hrest =>
          cases hrest with
          | skip hname hrest => exact ⟨_, .skip hname (.field hf hd hfresh hrest), fun _ => rfl⟩
          | field hf' hd' hfresh' hrest =>
              obtain ⟨hne, hfresh⟩ := lookup_cons_eq_none.mp hfresh
              refine ⟨_, .field hf' hd' (lookup_cons_eq_none.mpr ⟨hne.symm, hfresh'⟩)
                (.field hf hd hfresh hrest), fun name => lookup_swap hne _ _ _ name⟩
  | trans _ _ ih ih' =>
      obtain ⟨read', hread', hlookup⟩ := ih h
      obtain ⟨read'', hread'', hlookup'⟩ := ih' hread'
      exact ⟨read'', hread'', fun name => (hlookup' name).trans (hlookup name)⟩

end FieldsRead

/-! ## What the fields hold -/

/-- The fields hold the same, where one that is not there holds what leaving it out means. -/
structure HoldSame (fields : List Field) (read read' : List (String × Datum)) : Prop where
  fresh (name : String) (h : read.lookup name = none) : read'.lookup name = none
  held (f : Field) (hf : f ∈ fields) :
    (read'.lookup f.name).or f.missing? = (read.lookup f.name).or f.missing?

section HoldSame

variable {fields : List Field} {read read' : List (String × Datum)}

theorem arrange?_eq_mapM (fields : List Field) (read : List (String × Datum)) :
    arrange? fields read = fields.mapM fun f => (read.lookup f.name).or f.missing? := by
  unfold arrange?
  congr 1
  funext f
  cases read.lookup f.name <;> rfl

theorem HoldSame.arrange? (h : HoldSame fields read read') :
    arrange? fields read' = arrange? fields read := by
  rw [arrange?_eq_mapM, arrange?_eq_mapM]
  obtain ⟨-, h⟩ := h
  induction fields with
  | nil => rfl
  | cons f fields ih =>
      rw [List.mapM_cons, List.mapM_cons, h f List.mem_cons_self,
        ih fun g hg => h g (List.mem_cons_of_mem _ hg)]

theorem HoldSame.refl : HoldSame fields read read where
  fresh _ h := h
  held _ _ := rfl

/-- A further field on both sides. -/
theorem HoldSame.cons (h : HoldSame fields read read') (name : String) (d : Datum) :
    HoldSame fields ((name, d) :: read) ((name, d) :: read') where
  fresh name' hname' := by
    rw [lookup_cons_eq_none] at hname' ⊢
    exact ⟨hname'.1, h.fresh name' hname'.2⟩
  held f hf := by
    rw [List.lookup_cons, List.lookup_cons]
    split
    · rfl
    · exact h.held f hf

/-- A further field on one side that holds what leaving it out means. -/
theorem HoldSame.omit (h : HoldSame fields read read') (hnodup : (fields.map (·.name)).Nodup)
    {f : Field} (hf : f ∈ fields) {d : Datum} (hd : f.missing? = some d)
    (hfresh : read.lookup f.name = none) : HoldSame fields ((f.name, d) :: read) read' where
  fresh name hname := h.fresh name (lookup_cons_eq_none.mp hname).2
  held g hg := by
    rw [h.held g hg, List.lookup_cons]
    by_cases hname : g.name = f.name
    · obtain rfl := List.inj_on_of_nodup_map hnodup hg hf hname
      rw [hfresh, hd, beq_self_eq_true]
      rfl
    · rw [beq_eq_false_iff_ne.mpr hname]

end HoldSame

/-! ## Defaults -/

theorem ofJson?_of_bare {s : Shape} {d d' : Datum} {j : Json} {budget : Nat} (h : bare s d = true)
    (hj : toJson? s d = some j) (hread : ofJson? budget s j = some d') : d' = d := by
  unfold bare at h
  split at h
  · cases hj
    exact (Option.some.inj hread).symm
  · cases hj
    exact (Option.some.inj hread).symm
  · cases hj
    rw [ofJson?] at hread
    split at hread
    · cases hread
    · exact (Option.some.inj hread).symm
  · cases hj
    rw [ofJson?] at hread
    split at hread
    · cases hread
    · exact (Option.some.inj hread).symm
  · cases h

/-- A field that is written as what leaving it out means is read as that. -/
theorem fieldOfJson?_of_missing {f : Field} (hbare : f.defaultBare = true) {d d' : Datum}
    {j : Json} {budget : Nat} (hd : f.missing? = some d) (hj : fieldToJson? f d = some j)
    (hread : fieldOfJson? budget f j = some d') : d' = d := by
  unfold Field.defaultBare at hbare
  rw [hd] at hbare
  unfold fieldToJson? at hj
  unfold fieldOfJson? at hread
  by_cases hopt : f.optional = true
  · simp only [if_pos hopt] at hbare hj hread
    split at hbare
    · cases hj
      exact (Option.some.inj hread).symm
    · cases hbare
  · simp only [if_neg hopt] at hbare hj hread
    exact ofJson?_of_bare hbare hj hread

/-! ## Answers that are kept -/

/-- What the first gives the second gives as well. -/
def Kept {α : Type} (a a' : Option α) : Prop := ∀ x, a = some x → a' = some x

section Kept

variable {α β : Type} {a a' : Option α}

theorem Kept.refl : Kept a a := fun _ h => h

theorem Kept.map (h : Kept a a') (f : α → β) : Kept (a.map f) (a'.map f) := by
  intro y hy
  obtain ⟨x, hx, rfl⟩ := Option.map_eq_some_iff.mp hy
  rw [h x hx, Option.map_some]

theorem Kept.bind (h : Kept a a') {f f' : α → Option β} (hf : ∀ x, Kept (f x) (f' x)) :
    Kept (a.bind f) (a'.bind f') := by
  intro y hy
  obtain ⟨x, hx, hy⟩ := Option.bind_eq_some_iff.mp hy
  rw [h x hx, Option.bind_some, hf x y hy]

/-- Under a condition on which neither gives anything. -/
theorem Kept.unless (h : Kept a a') (p : Prop) [Decidable p] :
    Kept (if p then none else a) (if p then none else a') := by
  split
  · exact .refl
  · exact h

end Kept

/-- The fields in the order of the layout are kept if they hold the same. -/
theorem kept_arrange? {budget : Nat} {fields : List Field} (hnodup : (fields.map (·.name)).Nodup)
    {given given' : List (Json.Text × Json)}
    (h : ∀ {read}, FieldsRead budget fields given read →
      ∃ read', FieldsRead budget fields given' read' ∧ HoldSame fields read read') :
    Kept ((fieldsOfJson? budget fields given).bind (arrange? fields))
      ((fieldsOfJson? budget fields given').bind (arrange? fields)) := by
  intro ds hds
  obtain ⟨read, hread, hds⟩ := Option.bind_eq_some_iff.mp hds
  obtain ⟨read', hread', hsame⟩ := h (fieldsRead_of_fieldsOfJson? hread)
  rw [hread'.fieldsOfJson? hnodup, Option.bind_some, hsame.arrange?, hds]

theorem Respells.eq_null_iff {s : Shape} {j j' : Json} (h : Respells s j j') :
    j = .null ↔ j' = .null := by
  cases h <;> simp [Json.object]

theorem fieldOfJson?_of_ne_null {budget : Nat} {f : Field} (hopt : f.optional = true) {j : Json}
    (h : j ≠ .null) : fieldOfJson? budget f j = (ofJson? budget f.shape j).map .present := by
  unfold fieldOfJson?
  rw [if_pos hopt]
  cases j with
  | null => exact absurd rfl h
  | _ => rfl

theorem fieldOfJson?_of_required {budget : Nat} {f : Field} (hopt : ¬ f.optional = true)
    (j : Json) : fieldOfJson? budget f j = ofJson? budget f.shape j := if_neg hopt

theorem kept_fieldOfJson? {budget : Nat} {f : Field} {j j' : Json} (hnull : j = .null ↔ j' = .null)
    (h : Kept (ofJson? budget f.shape j) (ofJson? budget f.shape j')) :
    Kept (fieldOfJson? budget f j) (fieldOfJson? budget f j') := by
  by_cases hopt : f.optional = true
  · by_cases hj : j = .null
    · rw [hnull.mp hj, hj]
      exact .refl
    · rw [fieldOfJson?_of_ne_null hopt hj, fieldOfJson?_of_ne_null hopt (hnull.not.mp hj)]
      exact h.map _
  · rw [fieldOfJson?_of_required hopt, fieldOfJson?_of_required hopt]
    exact h

/-! ## Objects that are read -/

section Objects

variable {budget : Nat} {e : Entity} {name : String} {index : Nat}

theorem ofJson?_record {fields : List Field} (he : e.layout = .record fields)
    (given : List (Json.Text × Json)) :
    ofJson? budget (.entity e) (.obj given)
      = if budget = 0 then none
        else ((fieldsOfJson? (budget - 1) fields given).bind (arrange? fields)).map .record := by
  rw [ofJson?, he]

theorem ofJson?_one {shape : Shape} (hcase : e.layout.case? name = some (index, .one shape))
    (j : Json) :
    ofJson? budget (.entity e) (.object [(name, j)])
      = if budget = 0 then none else (ofJson? (budget - 1) shape j).map (.variant index) := by
  rw [Json.object, List.map_singleton, ofJson?]
  cases he : e.layout with
  | record _ =>
      rw [he] at hcase
      cases hcase
  | choice cases =>
      rw [he] at hcase
      simp only [hcase]

theorem ofJson?_fields {fields : List Field}
    (hcase : e.layout.case? name = some (index, .fields fields))
    (given : List (Json.Text × Json)) :
    ofJson? budget (.entity e) (.object [(name, .obj given)])
      = if budget = 0 then none
        else if budget = 1 then none
        else ((fieldsOfJson? (budget - 2) fields given).bind (arrange? fields)).map
          fun ds => .variant index (.record ds) := by
  rw [Json.object, List.map_singleton, ofJson?]
  cases he : e.layout with
  | record _ =>
      rw [he] at hcase
      cases hcase
  | choice cases =>
      rw [he] at hcase
      simp only [hcase]

end Objects

/-! ## The induction -/

mutual

/-- A datum that is read of a tree is read of its respellings. -/
theorem Respells.kept : ∀ {s : Shape} {j j' : Json}, Respells s j j' →
    ∀ {budget : Nat}, Kept (ofJson? budget s j) (ofJson? budget s j')
  | _, _, _, .refl _, _ => .refl
  | _, _, _, .list h, _ => by
      rw [ofJson?, ofJson?]
      exact (h.kept.map _).unless _
  | _, _, _, .table h, _ => by
      rw [ofJson?, ofJson?]
      exact (h.kept.map _).unless _
  | _, _, _, .record he h, _ => by
      have hnodup := Entity.nodup_fieldNames he
      rw [ofJson?_record he, ofJson?_record he]
      exact ((kept_arrange? hnodup
        (h.exists_read hnodup (Entity.defaultBare_of_record he))).map _).unless _
  | _, _, _, .one hcase h, _ => by
      rw [ofJson?_one hcase, ofJson?_one hcase]
      exact (h.kept.map _).unless _
  | _, _, _, .fields hcase h, _ => by
      have hnodup := Entity.nodup_of_case hcase
      rw [ofJson?_fields hcase, ofJson?_fields hcase]
      exact (((kept_arrange? hnodup
        (h.exists_read hnodup (Entity.defaultBare_of_case hcase))).map _).unless _).unless _

theorem ItemsRespell.kept : ∀ {item : Shape} {js js' : List Json}, ItemsRespell item js js' →
    ∀ {budget : Nat}, Kept (itemsOfJson? budget item js) (itemsOfJson? budget item js')
  | _, _, _, .nil, _ => .refl
  | _, _, _, .cons h hrest, _ => by
      rw [itemsOfJson?, itemsOfJson?]
      exact h.kept.bind fun _ => hrest.kept.bind fun _ => .refl

theorem EntriesRespell.kept : ∀ {value : Shape} {given given' : List (Json.Text × Json)},
    EntriesRespell value given given' → ∀ {budget : Nat} {key : Shape},
      Kept (entriesOfJson? budget key value given) (entriesOfJson? budget key value given')
  | _, _, _, .nil, _, _ => .refl
  | _, _, _, .cons h hrest, _, _ => by
      rw [entriesOfJson?, entriesOfJson?]
      exact Kept.refl.bind fun _ => h.kept.bind fun _ => hrest.kept.bind fun _ => .refl

theorem FieldsRespell.exists_read : ∀ {fields : List Field}
    {given given' : List (Json.Text × Json)}, FieldsRespell fields given given' →
      (fields.map (·.name)).Nodup → (∀ f ∈ fields, f.defaultBare = true) →
      ∀ {budget : Nat} {read : List (String × Datum)}, FieldsRead budget fields given read →
        ∃ read', FieldsRead budget fields given' read' ∧ HoldSame fields read read'
  | _, _, _, .nil, _, _, _, _, hread => ⟨_, hread, .refl⟩
  | _, _, _, .keep hf h hrest, hnodup, hbare, _, _, hread => by
      obtain ⟨d, read, rfl, hd, hfresh, hread⟩ := hread.of_name_mem hnodup hf
      obtain ⟨read', hread', hsame⟩ := hrest.exists_read hnodup hbare hread
      have hd' := kept_fieldOfJson? h.eq_null_iff h.kept d hd
      exact ⟨_, .field hf hd' (hsame.fresh _ hfresh) hread', hsame.cons _ d⟩
  | _, _, _, .insert hname hrest, hnodup, hbare, _, _, hread => by
      obtain ⟨read', hread', hsame⟩ := hrest.exists_read hnodup hbare hread
      exact ⟨read', .skip hname hread', hsame⟩
  | _, _, _, .omit hf hd hj hrest, hnodup, hbare, _, _, hread => by
      obtain ⟨d', read, rfl, hd', hfresh, hread⟩ := hread.of_name_mem hnodup hf
      obtain rfl := fieldOfJson?_of_missing (hbare _ hf) hd hj hd'
      obtain ⟨read', hread', hsame⟩ := hrest.exists_read hnodup hbare hread
      exact ⟨read', hread', hsame.omit hnodup hf hd hfresh⟩
  | _, _, _, .permute h hperm, hnodup, hbare, _, _, hread => by
      obtain ⟨read', hread', hsame⟩ := h.exists_read hnodup hbare hread
      obtain ⟨read'', hread'', hlookup⟩ := hread'.perm hperm
      exact ⟨read'', hread'', fun name hname => (hlookup name).trans (hsame.fresh name hname),
        fun f hf => by rw [hlookup, hsame.held f hf]⟩

end

end Datum

end ModelExport
