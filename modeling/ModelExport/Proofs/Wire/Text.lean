import ModelExport.Proofs.Table.Lookup
import ModelExport.Proofs.Wire.Fits
import ModelExport.Wire.Text

/-!
# Reading back trees of data

A datum that fits a shape has a tree, and the tree is read back exactly
when it nests no deeper than the reader's budget of levels. Both are the
one relation `Datum.HasTree`, and the induction is on the fit
(`Datum.Fits.hasTree`), one case for each kind of shape.

Two things are asked of the datum. Its numbers of 32 bits have to be read
back from their own trees. And the keys of its tables have to be texts:
the layouts say so of every entity but one (`Shape.keyed`), the tables of
column roles, whose keys need not have a name.
-/

namespace ModelExport

/-! ## Shapes with texts as keys -/

/-- Every table inside has texts as keys. -/
def Shape.keyed : Shape → Bool
  | .list item => item.keyed
  | .table key value => key = .text && value.keyed
  | .entity e => e ≠ .roles
  | _ => true

namespace Content

/-- What stands in a case. -/
def shapes : Content → List Shape
  | .empty => []
  | .one shape => [shape]
  | .fields fs => fs.map (·.shape)

end Content

namespace Entity

variable {e : Entity} {fields : List Field} {cases : List Case}

theorem keyed_of_record (h : e.layout = .record fields) (hne : e ≠ .roles) :
    ∀ f ∈ fields, f.shape.keyed = true := by
  cases e <;> cases h <;> first | decide | exact absurd rfl hne

theorem keyed_of_choice (h : e.layout = .choice cases) :
    ∀ c ∈ cases, ∀ s ∈ c.content.shapes, s.keyed = true := by
  cases e <;> cases h <;> decide

end Entity

/-! ## Numbers -/

namespace Numeral

theorem uint64?_ofNat (n : UInt64) : uint64? { whole := n.toNat } = some n := by
  have hlt := n.toNat_lt
  have hint : int? { whole := n.toNat } = some (n.toNat : Int) := rfl
  rw [uint64?, hint]
  simp only
  rw [if_pos ⟨by omega, by simp only [UInt64.size]; omega⟩, Int.toNat_natCast, UInt64.ofNat_toNat]

theorem int64?_ofInt (n : Int64) :
    int64? { negative := n.toInt < 0, whole := n.toInt.natAbs } = some n := by
  have hlow := n.le_toInt
  have hhigh := n.toInt_lt
  have hint : int? { negative := n.toInt < 0, whole := n.toInt.natAbs } = some n.toInt := by
    rw [int?, if_pos ⟨rfl, rfl⟩]
    by_cases hneg : n.toInt < 0
    · rw [if_pos (decide_eq_true hneg), if_neg (by simp only; omega)]
      exact congrArg some (by simp only; omega)
    · rw [if_neg (by simpa using hneg)]
      exact congrArg some (by simp only; omega)
  rw [int64?, hint]
  simp only
  rw [if_pos ⟨by omega, by omega⟩, Int64.ofInt_toInt]

end Numeral

namespace Single

theorem depth_toJson (x : Single) : x.toJson.depth = 0 := by
  unfold toJson
  split
  · rfl
  split
  · rfl
  split <;> rfl

theorem toJson_ne_null (x : Single) : x.toJson ≠ .null := by
  unfold toJson
  split
  · nofun
  split
  · nofun
  split <;> nofun

end Single

theorem Json.depth_object (name : String) (j : Json) :
    (object [(name, j)]).depth = j.depth + 1 := by
  simp [object, depth, depthFields]

namespace Datum

/-! ## Budgets of levels -/

/-- The value, if the levels are within the budget. -/
def within {α : Type} (levels budget : Nat) (a : α) : Option α :=
  if levels ≤ budget then some a else none

section within

variable {α β : Type} {m n budget : Nat}

theorem within_zero (a : α) : within 0 budget a = some a := if_pos (Nat.zero_le _)

theorem map_within (f : α → β) (a : α) : (within n budget a).map f = within n budget (f a) := by
  unfold within
  split <;> rfl

theorem bind_within {f : α → Option β} {a : α} {b : β} (h : f a = within n budget b) :
    (within m budget a).bind f = within (max m n) budget b := by
  by_cases hm : m ≤ budget <;> by_cases hn : n ≤ budget <;> simp [within, hm, hn, h, Nat.max_le]

theorem bind_within_some {f : α → Option β} {a : α} {b : β} (h : f a = some b) :
    (within n budget a).bind f = within n budget b := by
  unfold within
  split
  · exact h
  · rfl

/-- A container takes a level for itself. -/
theorem within_succ (a : α) :
    (if budget = 0 then none else within n (budget - 1) a) = within (n + 1) budget a := by
  unfold within
  by_cases hbudget : budget = 0
  · rw [if_pos hbudget, if_neg (by omega)]
  · rw [if_neg hbudget]
    by_cases hn : n ≤ budget - 1
    · rw [if_pos hn, if_pos (by omega)]
    · rw [if_neg hn, if_neg (by omega)]

theorem within_succ_succ (a : α) :
    (if budget = 0 then none
      else if budget = 1 then none else within n (budget - 2) a) = within (n + 2) budget a := by
  rw [← within_succ]
  by_cases hbudget : budget = 0
  · rw [if_pos hbudget, if_pos hbudget]
  · have hone : budget = 1 ↔ budget - 1 = 0 := by omega
    simp only [if_neg hbudget, ← within_succ, hone, Nat.sub_sub]

end within

/-- The tree of the datum. It is read back within as many levels as it has. -/
structure HasTree (s : Shape) (d : Datum) (j : Json) : Prop where
  toJson? : toJson? s d = some j
  ne_null : j ≠ .null
  ofJson? (budget : Nat) : ofJson? budget s j = within j.depth budget d

/-! ## Fields -/

/-- The tree of what a field holds. -/
def fieldToJson? (field : Field) (d : Datum) : Option Json :=
  if field.optional then
    match d with
    | .absent => some Json.null
    | .present d => toJson? field.shape d
    | _ => none
  else toJson? field.shape d

theorem fieldsToJson?_cons (field : Field) (fields : List Field) (d : Datum) (ds : List Datum) :
    fieldsToJson? (field :: fields) (d :: ds) = do
      let j ← fieldToJson? field d
      let js ← fieldsToJson? fields ds
      return (some field.name, j) :: js := by
  cases hopt : field.optional <;> cases d <;> simp [fieldsToJson?, fieldToJson?, hopt]

/-- What a field holds, from its tree. -/
def fieldOfJson? (budget : Nat) (field : Field) (j : Json) : Option Datum :=
  if field.optional then
    match j with
    | .null => some Datum.absent
    | j => (ofJson? budget field.shape j).map .present
  else ofJson? budget field.shape j

theorem fieldsOfJson?_cons {fields : List Field} {name : String} {field : Field}
    (h : fields.find? (·.name = name) = some field) (budget : Nat) (j : Json)
    (rest : List (Json.Text × Json)) :
    fieldsOfJson? budget fields ((some name, j) :: rest) = do
      let d ← fieldOfJson? budget field j
      let ds ← fieldsOfJson? budget fields rest
      if (ds.lookup name).isSome then none else return (name, d) :: ds := by
  rw [fieldsOfJson?, h]
  simp only [fieldOfJson?]
  cases field.optional <;> cases j <;> rfl

theorem find?_of_nodup {fields : List Field} (h : (fields.map (·.name)).Nodup) {f : Field}
    (hf : f ∈ fields) : fields.find? (·.name = f.name) = some f := by
  induction fields with
  | nil => cases hf
  | cons first rest ih =>
      rw [List.map_cons, List.nodup_cons] at h
      rcases List.mem_cons.mp hf with rfl | hf
      · rw [List.find?_cons_of_pos (by simp)]
      · have hne : first.name ≠ f.name := fun he => h.1 (he ▸ List.mem_map_of_mem hf)
        rw [List.find?_cons_of_neg (by simpa using hne), ih h.2 hf]

theorem arrange?_of_lookup {fields : List Field} {ds : List Datum} {read : List (String × Datum)}
    (hlen : ds.length = fields.length)
    (h : ∀ p ∈ (fields.map (·.name)).zip ds, read.lookup p.1 = some p.2) :
    arrange? fields read = some ds := by
  induction fields generalizing ds with
  | nil =>
      obtain rfl := List.length_eq_zero_iff.mp hlen
      rfl
  | cons f fields ih =>
      obtain ⟨d, ds, rfl⟩ := List.exists_cons_of_length_eq_add_one hlen
      have hfirst : read.lookup f.name = some d := h (f.name, d) (List.mem_cons_self ..)
      have hrest := ih (Nat.succ.inj hlen) fun p hp => h p (List.mem_cons_of_mem _ hp)
      rw [arrange?] at hrest
      rw [arrange?, List.mapM_cons, hfirst, hrest]
      rfl

/-- Data under the names of the fields come into the order of the fields. -/
theorem arrange?_zip {fields : List Field} (hnodup : (fields.map (·.name)).Nodup)
    {ds : List Datum} (hlen : ds.length = fields.length) :
    arrange? fields ((fields.map (·.name)).zip ds) = some ds :=
  arrange?_of_lookup hlen fun _ hp => lookup_zip_of_mem hnodup hp

/-! ## Cases -/

theorem case?_name {cases : List Case} (hnodup : (cases.map (·.name)).Nodup) {index : Nat}
    {c : Case} (hc : cases[index]? = some c) :
    (Form.choice cases).case? c.name = some (index, c.content) := by
  obtain ⟨hlt, hget⟩ := List.getElem?_eq_some_iff.mp hc
  have hfind : cases.findIdx? (·.name = c.name) = some index := by
    rw [List.findIdx?_eq_some_iff_getElem]
    refine ⟨hlt, by simp [hget], ?_⟩
    intro j hj hname
    have hne := List.pairwise_iff_getElem.mp hnodup j index (by simp; omega) (by simpa) hj
    simp only [List.getElem_map, hget] at hne
    exact hne (of_decide_eq_true hname)
  rw [Form.case?, hfind]
  simp [hc]

/-! ## The induction -/

/-- The numbers of 32 bits among the data are read back from their own trees. -/
def Legible (data : List Datum) : Prop :=
  ∀ x, .single x ∈ data → Single.ofJson? x.toJson = some x

theorem Legible.mono {data part : List Datum} (h : Legible data) (hsub : part ⊆ data) :
    Legible part := fun x hx => h x (hsub hx)

theorem hasTree_list {item : Shape} {items : List Datum} (h : ∀ d ∈ items, ∃ j, HasTree item d j) :
    ∃ js, itemsToJson? item items = some js
      ∧ ∀ budget, itemsOfJson? budget item js = within (Json.depthItems js) budget items := by
  induction items with
  | nil => exact ⟨[], rfl, fun _ => (within_zero _).symm⟩
  | cons d rest ih =>
      obtain ⟨j, hj⟩ := h d (List.mem_cons_self ..)
      obtain ⟨js, hjs, hread⟩ := ih fun e he => h e (List.mem_cons_of_mem _ he)
      refine ⟨j :: js, by simp [itemsToJson?, hj.toJson?, hjs], ?_⟩
      intro budget
      rw [itemsOfJson?, hj.ofJson?, hread, Json.depthItems]
      exact bind_within (bind_within_some rfl)

theorem hasTree_table {value : Shape} {entries : List (Datum × Datum)}
    (hkeys : ∀ e ∈ entries, Fits .text e.1) (h : ∀ e ∈ entries, ∃ j, HasTree value e.2 j) :
    ∃ js, entriesToJson? .text value entries = some js
      ∧ ∀ budget, entriesOfJson? budget .text value js
          = within (Json.depthFields js) budget entries := by
  induction entries with
  | nil => exact ⟨[], rfl, fun _ => (within_zero _).symm⟩
  | cons e rest ih =>
      obtain ⟨k, d⟩ := e
      obtain ⟨j, hj⟩ := h _ (List.mem_cons_self ..)
      obtain ⟨js, hjs, hread⟩ := ih (fun e he => hkeys e (List.mem_cons_of_mem _ he))
        fun e he => h e (List.mem_cons_of_mem _ he)
      obtain ⟨s, rfl⟩ : ∃ s, k = .text s := by
        cases hkeys (k, d) (List.mem_cons_self ..) with
        | text s => exact ⟨s, rfl⟩
      refine ⟨(some s, j) :: js, by simp [entriesToJson?, keyText?, hj.toJson?, hjs], ?_⟩
      intro budget
      rw [entriesOfJson?, hj.ofJson?, hread, Json.depthFields]
      exact bind_within (bind_within_some rfl)

theorem FieldsFit.length_eq : ∀ {fields : List Field} {ds : List Datum}, FieldsFit fields ds →
    ds.length = fields.length
  | _, _, .nil => rfl
  | _, _, .cons _ hrest => congrArg Nat.succ hrest.length_eq

/-- The tree of an object: its fields are written in order and found by name. -/
structure HasFields (fields : List Field) (ds : List Datum) (js : List (Json.Text × Json)) :
    Prop where
  toJson? : fieldsToJson? fields ds = some js
  ofJson? (all : List Field) (hall : ∀ f ∈ fields, all.find? (·.name = f.name) = some f)
    (hnodup : (fields.map (·.name)).Nodup) (budget : Nat) :
    fieldsOfJson? budget all js
      = within (Json.depthFields js) budget ((fields.map (·.name)).zip ds)

theorem HasFields.arrange? {fields : List Field} {ds : List Datum}
    {js : List (Json.Text × Json)} (h : HasFields fields ds js)
    (hnodup : (fields.map (·.name)).Nodup) (hlen : ds.length = fields.length) (budget : Nat) :
    (fieldsOfJson? budget fields js).bind (arrange? fields)
      = within (Json.depthFields js) budget ds := by
  rw [h.ofJson? fields (fun f hf => find?_of_nodup hnodup hf) hnodup]
  exact bind_within_some (arrange?_zip hnodup hlen)

mutual

theorem Fits.hasTree : ∀ {s : Shape} {d : Datum}, Fits s d → s.keyed = true → Legible d.subdata →
    ∃ j, HasTree s d j
  | _, _, .bool b, _, _ => ⟨.bool b, rfl, nofun, fun _ => (within_zero _).symm⟩
  | _, _, .uint n, _, _ => by
      refine ⟨.ofNat n.toNat, rfl, nofun, fun budget => ?_⟩
      rw [Json.ofNat, ofJson?, Numeral.uint64?_ofNat]
      exact (within_zero _).symm
  | _, _, .int n, _, _ => by
      refine ⟨.ofInt n.toInt, rfl, nofun, fun budget => ?_⟩
      rw [Json.ofInt, ofJson?, Numeral.int64?_ofInt]
      exact (within_zero _).symm
  | _, _, .single x, _, hlegible => by
      refine ⟨x.toJson, rfl, x.toJson_ne_null, fun budget => ?_⟩
      rw [ofJson?, hlegible x (mem_subdata_self _), x.depth_toJson]
      exact (within_zero _).symm
  | _, _, .text s, _, _ => ⟨.ofString s, rfl, nofun, fun _ => (within_zero _).symm⟩
  | _, _, @Fits.list item items h, hkeyed, hlegible => by
      obtain ⟨js, hjs, hread⟩ := hasTree_list fun d hd => (h d hd).hasTree hkeyed
        (hlegible.mono fun p hp => List.mem_cons_of_mem _ (subdata_subset_of_mem hd hp))
      refine ⟨.arr js, by rw [toJson?, hjs]; rfl, nofun, fun budget => ?_⟩
      rw [ofJson?, hread, map_within, within_succ, Json.depth]
  | _, _, @Fits.table key value entries hkeys hvalues, hkeyed, hlegible => by
      rw [Shape.keyed, Bool.and_eq_true, decide_eq_true_eq] at hkeyed
      obtain ⟨rfl, hkeyed⟩ := hkeyed
      obtain ⟨js, hjs, hread⟩ := hasTree_table hkeys fun e he => (hvalues e he).hasTree hkeyed
        (hlegible.mono fun p hp => List.mem_cons_of_mem _
          (subdata_subset_of_mem_entries he (List.mem_append_right _ hp)))
      refine ⟨.obj js, by rw [toJson?, hjs]; rfl, nofun, fun budget => ?_⟩
      rw [ofJson?, hread, map_within, within_succ, Json.depth]
  | _, _, @Fits.record e fields ds he h, hkeyed, hlegible => by
      have hnodup := Entity.nodup_fieldNames he
      obtain ⟨js, hjs⟩ := h.hasTree (Entity.keyed_of_record he (of_decide_eq_true hkeyed))
        (hlegible.mono (List.subset_cons_self ..))
      refine ⟨.obj js, by rw [toJson?, he]; simp only [hjs.toJson?]; rfl, nofun, fun budget => ?_⟩
      rw [ofJson?, he]
      simp only [hjs.arrange? hnodup h.length_eq, map_within]
      rw [within_succ, Json.depth]
  | _, _, @Fits.variant e cases index ⟨name, content⟩ d he hc h, hkeyed, hlegible =>
      h.hasTree he hc (hlegible.mono (List.subset_cons_self ..))

theorem FieldFits.hasTree : ∀ {field : Field} {d : Datum}, FieldFits field d →
    field.shape.keyed = true → Legible d.subdata →
      ∃ j, fieldToJson? field d = some j
        ∧ ∀ budget, fieldOfJson? budget field j = within j.depth budget d
  | _, _, .required hopt h, hkeyed, hlegible => by
      obtain ⟨j, hj⟩ := h.hasTree hkeyed hlegible
      refine ⟨j, by simp [fieldToJson?, hopt, hj.toJson?], fun budget => ?_⟩
      simp [fieldOfJson?, hopt, hj.ofJson?]
  | _, _, .absent hopt, _, _ => by
      refine ⟨.null, by simp [fieldToJson?, hopt], fun budget => ?_⟩
      simp [fieldOfJson?, hopt, Json.depth, within]
  | _, _, .present hopt h, hkeyed, hlegible => by
      obtain ⟨j, hj⟩ := h.hasTree hkeyed (hlegible.mono (List.subset_cons_self ..))
      refine ⟨j, by simp [fieldToJson?, hopt, hj.toJson?], fun budget => ?_⟩
      have hread := hj.ofJson? budget
      have hnull := hj.ne_null
      cases j <;> simp_all [fieldOfJson?, map_within]

theorem FieldsFit.hasTree : ∀ {fields : List Field} {ds : List Datum}, FieldsFit fields ds →
    (∀ f ∈ fields, f.shape.keyed = true) → Legible (subdataOfItems ds) →
      ∃ js, HasFields fields ds js
  | _, _, .nil, _, _ => ⟨[], rfl, fun _ _ _ _ => (within_zero _).symm⟩
  | _, _, @FieldsFit.cons field fields d ds h hrest, hkeyed, hlegible => by
      obtain ⟨j, hj, hreadj⟩ := h.hasTree (hkeyed _ (List.mem_cons_self ..))
        (hlegible.mono (List.subset_append_left ..))
      obtain ⟨js, hjs⟩ := hrest.hasTree (fun f hf => hkeyed f (List.mem_cons_of_mem _ hf))
        (hlegible.mono (List.subset_append_right ..))
      refine ⟨(some field.name, j) :: js, by rw [fieldsToJson?_cons, hj, hjs.toJson?]; rfl, ?_⟩
      intro all hfind hnodup budget
      rw [List.map_cons, List.nodup_cons] at hnodup
      rw [fieldsOfJson?_cons (hfind _ (List.mem_cons_self ..)), hreadj,
        hjs.ofJson? all (fun f hf => hfind f (List.mem_cons_of_mem _ hf)) hnodup.2]
      refine bind_within (bind_within_some ?_)
      rw [lookup_zip_of_not_mem hnodup.1]
      rfl

theorem ContentFits.hasTree : ∀ {content : Content} {d : Datum}, ContentFits content d →
    ∀ {e : Entity} {cases : List Case} {index : Nat} {name : String}, e.layout = .choice cases →
      cases[index]? = some ⟨name, content⟩ → Legible d.subdata →
      ∃ j, HasTree (.entity e) (.variant index d) j
  | _, _, .empty, e, cases, index, name, he, hc, _ => by
      have hcase := case?_name (Entity.nodup_caseNames he) hc
      refine ⟨.ofString name, by rw [toJson?, he]; simp only [hc], nofun, fun budget => ?_⟩
      rw [Json.ofString, ofJson?, he, Form.unit?, hcase]
      exact (within_zero _).symm
  | _, _, @ContentFits.one shape d h, e, cases, index, name, he, hc, hlegible => by
      have hcase := case?_name (Entity.nodup_caseNames he) hc
      have hkeyed := Entity.keyed_of_choice he _ (List.mem_of_getElem? hc)
      obtain ⟨j, hj⟩ := h.hasTree (hkeyed shape (List.mem_singleton_self _)) hlegible
      refine ⟨.object [(name, j)], ?_, nofun, fun budget => ?_⟩
      · rw [toJson?, he]
        simp only [hc, hj.toJson?]
        rfl
      · rw [Json.depth_object, Json.object, List.map_singleton, ofJson?, he]
        simp only [hcase, hj.ofJson?, map_within]
        exact within_succ _
  | _, _, @ContentFits.fields fields ds h, e, cases, index, name, he, hc, hlegible => by
      have hcase := case?_name (Entity.nodup_caseNames he) hc
      have hmem := List.mem_of_getElem? hc
      have hkeyed := Entity.keyed_of_choice he _ hmem
      have hnodup := Entity.nodup_contentNames he _ hmem
      obtain ⟨js, hjs⟩ := h.hasTree (fun f hf => hkeyed _ (List.mem_map_of_mem hf))
        (hlegible.mono (List.subset_cons_self ..))
      refine ⟨.object [(name, .obj js)], ?_, nofun, fun budget => ?_⟩
      · rw [toJson?, he]
        simp only [hc, hjs.toJson?]
        rfl
      · rw [Json.depth_object, Json.object, List.map_singleton, ofJson?, he, Json.depth]
        simp only [hcase, hjs.arrange? hnodup h.length_eq, map_within]
        exact within_succ_succ _

end

/-! ## Trees of all data

Whether the numbers are read back does not matter for the tree itself. -/

theorem exists_itemsToJson? {item : Shape} {items : List Datum}
    (h : ∀ d ∈ items, ∃ j, toJson? item d = some j) : ∃ js, itemsToJson? item items = some js := by
  induction items with
  | nil => exact ⟨[], rfl⟩
  | cons d rest ih =>
      obtain ⟨j, hj⟩ := h d (List.mem_cons_self ..)
      obtain ⟨js, hjs⟩ := ih fun e he => h e (List.mem_cons_of_mem _ he)
      exact ⟨j :: js, by simp [itemsToJson?, hj, hjs]⟩

theorem exists_entriesToJson? {value : Shape} {entries : List (Datum × Datum)}
    (hkeys : ∀ e ∈ entries, Fits .text e.1) (h : ∀ e ∈ entries, ∃ j, toJson? value e.2 = some j) :
    ∃ js, entriesToJson? .text value entries = some js := by
  induction entries with
  | nil => exact ⟨[], rfl⟩
  | cons e rest ih =>
      obtain ⟨k, d⟩ := e
      obtain ⟨j, hj⟩ := h _ (List.mem_cons_self ..)
      obtain ⟨js, hjs⟩ := ih (fun e he => hkeys e (List.mem_cons_of_mem _ he))
        fun e he => h e (List.mem_cons_of_mem _ he)
      cases hkeys _ (List.mem_cons_self ..) with
      | text s => exact ⟨(some s, j) :: js, by simp [entriesToJson?, keyText?, hj, hjs]⟩

mutual

theorem Fits.exists_toJson? : ∀ {s : Shape} {d : Datum}, Fits s d → s.keyed = true →
    ∃ j, Datum.toJson? s d = some j
  | _, _, .bool _, _ | _, _, .uint _, _ | _, _, .int _, _ | _, _, .single _, _
  | _, _, .text _, _ => ⟨_, rfl⟩
  | _, _, .list h, hkeyed => by
      obtain ⟨js, hjs⟩ := exists_itemsToJson? fun d hd => (h d hd).exists_toJson? hkeyed
      exact ⟨.arr js, by rw [Datum.toJson?, hjs]; rfl⟩
  | _, _, .table hkeys hvalues, hkeyed => by
      rw [Shape.keyed, Bool.and_eq_true, decide_eq_true_eq] at hkeyed
      obtain ⟨rfl, hkeyed⟩ := hkeyed
      obtain ⟨js, hjs⟩ := exists_entriesToJson? hkeys
        fun e he => (hvalues e he).exists_toJson? hkeyed
      exact ⟨.obj js, by rw [Datum.toJson?, hjs]; rfl⟩
  | _, _, .record he h, hkeyed => by
      obtain ⟨js, hjs⟩ := h.exists_toJson? (Entity.keyed_of_record he (of_decide_eq_true hkeyed))
      exact ⟨.obj js, by rw [Datum.toJson?, he]; simp only [hjs]; rfl⟩
  | _, _, .variant he hc h, _ =>
      h.exists_toJson? he hc (Entity.keyed_of_choice he _ (List.mem_of_getElem? hc))

theorem FieldFits.exists_toJson? : ∀ {field : Field} {d : Datum}, FieldFits field d →
    field.shape.keyed = true → ∃ j, fieldToJson? field d = some j
  | _, _, .required hopt h, hkeyed => by
      obtain ⟨j, hj⟩ := h.exists_toJson? hkeyed
      exact ⟨j, by simp [fieldToJson?, hopt, hj]⟩
  | _, _, .absent hopt, _ => ⟨.null, by simp [fieldToJson?, hopt]⟩
  | _, _, .present hopt h, hkeyed => by
      obtain ⟨j, hj⟩ := h.exists_toJson? hkeyed
      exact ⟨j, by simp [fieldToJson?, hopt, hj]⟩

theorem FieldsFit.exists_toJson? : ∀ {fields : List Field} {ds : List Datum}, FieldsFit fields ds →
    (∀ f ∈ fields, f.shape.keyed = true) → ∃ js, fieldsToJson? fields ds = some js
  | _, _, .nil, _ => ⟨[], rfl⟩
  | _, _, .cons h hrest, hkeyed => by
      obtain ⟨j, hj⟩ := h.exists_toJson? (hkeyed _ (List.mem_cons_self ..))
      obtain ⟨js, hjs⟩ := hrest.exists_toJson? fun f hf => hkeyed f (List.mem_cons_of_mem _ hf)
      exact ⟨_, by rw [fieldsToJson?_cons, hj, hjs]; rfl⟩

theorem ContentFits.exists_toJson? : ∀ {content : Content} {d : Datum}, ContentFits content d →
    ∀ {e : Entity} {cases : List Case} {index : Nat} {name : String}, e.layout = .choice cases →
      cases[index]? = some ⟨name, content⟩ → (∀ s ∈ content.shapes, s.keyed = true) →
      ∃ j, Datum.toJson? (.entity e) (.variant index d) = some j
  | _, _, .empty, _, _, _, name, he, hc, _ =>
      ⟨.ofString name, by rw [Datum.toJson?, he]; simp only [hc]⟩
  | _, _, .one h, _, _, _, name, he, hc, hkeyed => by
      obtain ⟨j, hj⟩ := h.exists_toJson? (hkeyed _ (List.mem_singleton_self _))
      exact ⟨.object [(name, j)], by rw [Datum.toJson?, he]; simp only [hc, hj]; rfl⟩
  | _, _, .fields h, _, _, _, name, he, hc, hkeyed => by
      obtain ⟨js, hjs⟩ := h.exists_toJson? fun f hf => hkeyed _ (List.mem_map_of_mem hf)
      exact ⟨.object [(name, .obj js)], by rw [Datum.toJson?, he]; simp only [hc, hjs]; rfl⟩

end

end Datum

end ModelExport
