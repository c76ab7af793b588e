import ModelExport.Proofs.Wire.Fits
import ModelExport.Proofs.Wire.Varint

/-!
# Reading back binary data

A datum that fits an entity is read back from its bytes, whatever follows
them (`Datum.decode_encode`). The induction is on the fit, one case for
each kind of shape.

The reader works on a budget of levels, one for each entity that is open.
The induction carries it as a bound on bytes: a part has no more bytes
than levels are left, and fewer when it is an entity. Every entity inside
another one starts at least one byte later, because a choice writes its
number first and a record starts with a field that is no entity.
-/

namespace ModelExport

open ByteReader (Reads)

namespace Datum

/-- The length that is written in front of the parts fits 64 bits. -/
def Countable : Datum → Prop
  | .text s => (utf8 s).length < UInt64.size
  | .list items => items.length < UInt64.size
  | .table entries => entries.length < UInt64.size
  | _ => True

instance : DecidablePred Countable := fun d =>
  match d with
  | .text s => inferInstanceAs (Decidable ((utf8 s).length < UInt64.size))
  | .list items => inferInstanceAs (Decidable (items.length < UInt64.size))
  | .table entries => inferInstanceAs (Decidable (entries.length < UInt64.size))
  | .bool _ | .uint _ | .int _ | .single _ | .absent | .present _ | .record _ | .variant _ _ =>
      inferInstanceAs (Decidable True)

/-! ## What is written -/

mutual

theorem write_eq : ∀ (d : Datum) (after : List UInt8), d.write after = d.encode ++ after
  | .bool _, _ | .uint _, _ | .int _, _ | .single _, _ | .text _, _ | .absent, _ => by
      simp [encode, write]
  | .present d, after => by
      rw [encode, write, write, write_eq d after, write_eq d [], List.append_nil, List.cons_append]
  | .list items, after => by
      rw [encode, write, write, writeItems_eq items after, List.append_assoc]
  | .table entries, after => by
      rw [encode, write, write, writeEntries_eq entries after, List.append_assoc]
  | .record fields, after => by
      rw [encode, write, write, writeItems_eq fields after]
  | .variant index content, after => by
      rw [encode, write, write, write_eq content after, write_eq content [], List.append_nil,
        List.append_assoc]

theorem writeItems_eq : ∀ (items : List Datum) (after : List UInt8),
    writeItems items after = writeItems items [] ++ after
  | [], _ => rfl
  | d :: rest, after => by
      rw [writeItems, writeItems, writeItems_eq rest after, write_eq d (_ ++ after),
        write_eq d (writeItems rest []), List.append_assoc]

theorem writeEntries_eq : ∀ (entries : List (Datum × Datum)) (after : List UInt8),
    writeEntries entries after = writeEntries entries [] ++ after
  | [], _ => rfl
  | (k, v) :: rest, after => by
      rw [writeEntries, writeEntries, writeEntries_eq rest after, write_eq v (_ ++ after),
        write_eq v (writeEntries rest []), write_eq k (_ ++ (_ ++ after)), write_eq k (_ ++ _)]
      simp only [List.append_assoc]

end

/-- The bytes of the items, one after the other. -/
def encodeItems (items : List Datum) : List UInt8 := writeItems items []

/-- The bytes of the entries, one after the other. -/
def encodeEntries (entries : List (Datum × Datum)) : List UInt8 := writeEntries entries []

@[simp] theorem encode_bool (b : Bool) : (bool b).encode = [if b then 1 else 0] := rfl

@[simp] theorem encode_uint (n : UInt64) : (uint n).encode = Varint.encode n.toNat :=
  List.append_nil _

@[simp] theorem encode_int (n : Int64) : (int n).encode = Varint.encode (zigzag n) :=
  List.append_nil _

@[simp] theorem encode_single (x : Single) : (single x).encode = x.toBytes := rfl

@[simp] theorem encode_text (s : String) :
    (text s).encode = Varint.encode (utf8 s).length ++ utf8 s := by
  simp [encode, write]

@[simp] theorem encode_absent : absent.encode = [0] := rfl

@[simp] theorem encode_present (d : Datum) : (present d).encode = 1 :: d.encode := rfl

@[simp] theorem encode_list (items : List Datum) :
    (list items).encode = Varint.encode items.length ++ encodeItems items := rfl

@[simp] theorem encode_table (entries : List (Datum × Datum)) :
    (table entries).encode = Varint.encode entries.length ++ encodeEntries entries := rfl

@[simp] theorem encode_record (fields : List Datum) :
    (record fields).encode = encodeItems fields := rfl

@[simp] theorem encode_variant (index : Nat) (content : Datum) :
    (variant index content).encode = Varint.encode index ++ content.encode := rfl

@[simp] theorem encodeItems_nil : encodeItems [] = [] := rfl

@[simp] theorem encodeItems_cons (d : Datum) (rest : List Datum) :
    encodeItems (d :: rest) = d.encode ++ encodeItems rest :=
  write_eq d (writeItems rest [])

@[simp] theorem encodeEntries_nil : encodeEntries [] = [] := rfl

@[simp] theorem encodeEntries_cons (k v : Datum) (rest : List (Datum × Datum)) :
    encodeEntries ((k, v) :: rest) = k.encode ++ (v.encode ++ encodeEntries rest) := by
  rw [encodeEntries, writeEntries, write_eq, write_eq v, encodeEntries]

theorem length_encode_le_of_mem {items : List Datum} {d : Datum} (h : d ∈ items) :
    d.encode.length ≤ (encodeItems items).length := by
  induction items with
  | nil => cases h
  | cons first rest ih =>
      rw [encodeItems_cons, List.length_append]
      rcases List.mem_cons.mp h with rfl | h
      · exact Nat.le_add_right _ _
      · exact Nat.le_trans (ih h) (Nat.le_add_left _ _)

theorem length_encode_le_of_mem_entries {entries : List (Datum × Datum)} {e : Datum × Datum}
    (h : e ∈ entries) :
    e.1.encode.length ≤ (encodeEntries entries).length
      ∧ e.2.encode.length ≤ (encodeEntries entries).length := by
  induction entries with
  | nil => cases h
  | cons first rest ih =>
      rw [encodeEntries_cons, List.length_append, List.length_append]
      rcases List.mem_cons.mp h with rfl | h
      · omega
      · have := ih h
        omega

/-! ## Data have bytes -/

theorem length_varint_pos (n : Nat) : 0 < (Varint.encode n).length :=
  List.length_pos_iff.mpr (Varint.encode_ne_nil n)

theorem Fits.encode_pos_of_not_entity {s : Shape} {d : Datum} (h : Fits s d)
    (hs : s.isEntity = false) : 0 < d.encode.length := by
  cases h with
  | bool b => exact Nat.zero_lt_one
  | uint n => simpa using length_varint_pos n.toNat
  | int n => simpa using length_varint_pos (zigzag n)
  | single x => exact Nat.zero_lt_succ 3
  | text s =>
      have := length_varint_pos (utf8 s).length
      simp; omega
  | @list _ items =>
      have := length_varint_pos items.length
      simp; omega
  | @table _ _ entries =>
      have := length_varint_pos entries.length
      simp; omega
  | record => cases hs
  | variant => cases hs

theorem FieldFits.encode_pos_of_not_entity {field : Field} {d : Datum} (h : FieldFits field d)
    (hs : field.shape.isEntity = false) : 0 < d.encode.length := by
  cases h with
  | required hopt h => exact h.encode_pos_of_not_entity hs
  | absent => exact Nat.zero_lt_one
  | present hopt h => exact Nat.zero_lt_succ _

theorem Fits.encode_pos {s : Shape} {d : Datum} (h : Fits s d) : 0 < d.encode.length := by
  by_cases hs : s.isEntity
  · cases h with
    | record he h =>
        obtain ⟨first, rest, rfl, hfirst⟩ := Entity.exists_first_field he
        cases h with
        | cons h hrest =>
            have := h.encode_pos_of_not_entity hfirst
            simp; omega
    | @variant _ _ index _ content =>
        have := length_varint_pos index
        simp; omega
    | _ => cases hs
  · exact h.encode_pos_of_not_entity (Bool.eq_false_iff.mpr hs)

theorem FieldFits.encode_pos {field : Field} {d : Datum} (h : FieldFits field d) :
    0 < d.encode.length := by
  cases h with
  | required hopt h => exact h.encode_pos
  | absent => exact Nat.zero_lt_one
  | present hopt h => exact Nat.zero_lt_succ _

/-! ## Readers of parts -/

theorem reads_readFlag (b : Bool) (otherwise : WireError) :
    Reads (readFlag otherwise) [if b then 1 else 0] b := by
  refine (ByteReader.reads_byte _).last ?_
  cases b <;> exact ByteReader.reads_pure _

theorem reads_readText {s : String} (h : (utf8 s).length < UInt64.size) :
    Reads readText (Varint.encode (utf8 s).length ++ utf8 s) s := by
  refine (Varint.reads_encode h).bind ?_
  refine (ByteReader.reads_take (utf8 s)).last ?_
  rw [ofUtf8?_utf8]
  exact ByteReader.reads_pure s

theorem reads_readMany {α : Type} {read : ByteReader α} {bytes : α → List UInt8} {items : List α}
    (h : ∀ a ∈ items, Reads read (bytes a) a) :
    Reads (readMany read items.length) (items.flatMap bytes) items := by
  induction items with
  | nil => exact ByteReader.reads_pure []
  | cons a rest ih =>
      rw [List.flatMap_cons]
      refine (h a (List.mem_cons_self ..)).bind ?_
      refine (ih fun b hb => h b (List.mem_cons_of_mem _ hb)).last ?_
      exact ByteReader.reads_pure (a :: rest)

theorem encodeItems_eq_flatMap (items : List Datum) : encodeItems items = items.flatMap encode := by
  induction items with
  | nil => rfl
  | cons d rest ih => rw [encodeItems_cons, List.flatMap_cons, ih]

theorem encodeEntries_eq_flatMap (entries : List (Datum × Datum)) :
    encodeEntries entries = entries.flatMap fun e => e.1.encode ++ e.2.encode := by
  induction entries with
  | nil => rfl
  | cons e rest ih => rw [encodeEntries_cons, List.flatMap_cons, ih, List.append_assoc]

/-- The reader of one field of a record. -/
def readField (readEntity : Entity → ByteReader Datum) (field : Field) : ByteReader Datum :=
  if field.optional then do
    if ← readFlag .badOption then .present <$> readShape readEntity field.shape
    else pure .absent
  else readShape readEntity field.shape

theorem readFields_cons (readEntity : Entity → ByteReader Datum) (field : Field)
    (rest : List Field) :
    readFields readEntity (field :: rest) = do
      let d ← readField readEntity field
      let ds ← readFields readEntity rest
      return d :: ds := by
  rw [readFields, readField]
  split
  · rw [bind_assoc]
    congr 1
    funext given
    cases given <;> rfl
  · rfl

/-! ## The induction -/

mutual

theorem Fits.reads : ∀ {s : Shape} {d : Datum}, Fits s d → (∀ p ∈ d.subdata, p.Countable) →
    ∀ {level : Nat}, d.encode.length ≤ level → (s.isEntity = true → d.encode.length < level) →
      Reads (readShape (readEntity level) s) d.encode d
  | _, _, .bool b, _, _, _, _ => (reads_readFlag b .badFlag).map _
  | _, _, .uint n, _, level, _, _ => by
      have h := (Varint.reads_encode n.toNat_lt).map fun k => Datum.uint (UInt64.ofNat k)
      rw [UInt64.ofNat_toNat] at h
      rwa [encode_uint]
  | _, _, .int n, _, level, _, _ => by
      have h := (Varint.reads_encode (zigzag_lt n)).map fun k => Datum.int (ofZigzag k)
      rw [ofZigzag_zigzag] at h
      rwa [encode_int]
  | _, _, .single x, _, level, _, _ => by
      have h := (ByteReader.reads_take x.toBytes).map fun bytes =>
        Datum.single (Single.ofBytes bytes)
      rw [Single.ofBytes_toBytes] at h
      exact h
  | _, _, .text s, hc, level, _, _ => by
      rw [encode_text]
      exact (reads_readText (hc _ (mem_subdata_self _))).map Datum.text
  | _, _, @Fits.list item items h, hc, level, hlevel, _ => by
      have hpos := length_varint_pos items.length
      have hitems : ∀ d ∈ items, Reads (readShape (readEntity level) item) d.encode d := by
        intro d hd
        have hle := length_encode_le_of_mem hd
        rw [encode_list, List.length_append] at hlevel
        exact (h d hd).reads
          (fun p hp => hc p (List.mem_cons_of_mem _ (subdata_subset_of_mem hd hp)))
          (by omega) (fun _ => by omega)
      rw [encode_list, encodeItems_eq_flatMap]
      exact (Varint.reads_encode (hc _ (mem_subdata_self _))).bind ((reads_readMany hitems).map _)
  | _, _, @Fits.table key value entries hkeys hvalues, hc, level, hlevel, _ => by
      have hpos := length_varint_pos entries.length
      have hentries : ∀ e ∈ entries, Reads
          (do return (← readShape (readEntity level) key, ← readShape (readEntity level) value))
          (e.1.encode ++ e.2.encode) e := by
        intro e he
        have hle := length_encode_le_of_mem_entries he
        have hsub := subdata_subset_of_mem_entries he
        rw [encode_table, List.length_append] at hlevel
        refine ((hkeys e he).reads
          (fun p hp => hc p (List.mem_cons_of_mem _ (hsub (List.mem_append_left _ hp))))
          (by omega) (fun _ => by omega)).bind ?_
        refine ((hvalues e he).reads
          (fun p hp => hc p (List.mem_cons_of_mem _ (hsub (List.mem_append_right _ hp))))
          (by omega) (fun _ => by omega)).last ?_
        exact ByteReader.reads_pure e
      rw [encode_table, encodeEntries_eq_flatMap]
      exact (Varint.reads_encode (hc _ (mem_subdata_self _))).bind ((reads_readMany hentries).map _)
  | _, _, @Fits.record _ fields ds he h, hc, level, hlevel, hentity => by
      obtain ⟨level, rfl⟩ : ∃ l, level = l + 1 := ⟨level - 1, by have := hentity rfl; omega⟩
      have hlt := hentity rfl
      rw [encode_record] at hlt ⊢
      rw [readShape, readEntity, he]
      refine (h.reads (fun p hp => hc p (List.mem_cons_of_mem _ hp)) (by omega) ?_).map _
      obtain ⟨first, rest, rfl, hfirst⟩ := Entity.exists_first_field he
      intro f hf hs
      obtain rfl := Option.mem_some_iff.mp hf
      rw [hfirst] at hs
      cases hs
  | _, _, @Fits.variant _ _ index c content he hcase h, hc, level, hlevel, hentity => by
      obtain ⟨level, rfl⟩ : ∃ l, level = l + 1 := ⟨level - 1, by have := hentity rfl; omega⟩
      have hlt := hentity rfl
      have hpos := length_varint_pos index
      have hindex : index < 128 := by
        have := (List.getElem?_eq_some_iff.mp hcase).1
        have := Entity.length_cases_le he
        omega
      rw [encode_variant, List.length_append] at hlt
      rw [readShape, readEntity, he, encode_variant]
      refine (Varint.reads_encode_small hindex).bind ?_
      rw [hcase]
      exact (h.reads (fun p hp => hc p (List.mem_cons_of_mem _ hp)) (by omega)).map _

theorem FieldFits.reads : ∀ {field : Field} {d : Datum}, FieldFits field d →
    (∀ p ∈ d.subdata, p.Countable) → ∀ {level : Nat}, d.encode.length ≤ level →
      (field.shape.isEntity = true → d.encode.length < level) →
      Reads (readField (readEntity level) field) d.encode d
  | _, _, .required hopt h, hc, _, hlevel, hentity => by
      rw [readField, if_neg (by rw [hopt]; decide)]
      exact h.reads hc hlevel hentity
  | _, _, .absent hopt, _, _, _, _ => by
      rw [readField, if_pos hopt]
      exact (reads_readFlag false .badOption).bind (ByteReader.reads_pure _)
  | _, _, @FieldFits.present _ d hopt h, hc, level, hlevel, _ => by
      rw [encode_present, List.length_cons] at hlevel
      rw [readField, if_pos hopt, encode_present]
      have hsub : ∀ p ∈ d.subdata, p.Countable := fun p hp => hc p (List.mem_cons_of_mem _ hp)
      have hd : Reads (readShape (readEntity level) _) d.encode d :=
        h.reads hsub (by omega) fun _ => by omega
      exact (reads_readFlag true .badOption).bind (hd.map _)

/-- Behind the first field one byte is gone, so the further ones may be entities. -/
theorem FieldsFit.reads : ∀ {fields : List Field} {ds : List Datum}, FieldsFit fields ds →
    (∀ p ∈ subdataOfItems ds, p.Countable) → ∀ {level : Nat},
      (encodeItems ds).length ≤ level →
      (∀ f ∈ fields.head?, f.shape.isEntity = true → (encodeItems ds).length < level) →
      Reads (readFields (readEntity level) fields) (encodeItems ds) ds
  | _, _, .nil, _, _, _, _ => ByteReader.reads_pure []
  | _, _, @FieldsFit.cons field _ d ds h hrest, hc, level, hlevel, hfirst => by
      have hpos := h.encode_pos
      have hhead := hfirst field rfl
      rw [encodeItems_cons, List.length_append] at hlevel hhead
      rw [readFields_cons, encodeItems_cons]
      refine (h.reads (fun p hp => hc p (List.mem_append_left _ hp)) (by omega)
        (fun hs => by have := hhead hs; omega)).bind ?_
      refine (hrest.reads (fun p hp => hc p (List.mem_append_right _ hp)) (by omega)
        (fun _ _ _ => by omega)).last ?_
      exact ByteReader.reads_pure (d :: ds)

theorem ContentFits.reads : ∀ {content : Content} {d : Datum}, ContentFits content d →
    (∀ p ∈ d.subdata, p.Countable) → ∀ {level : Nat}, d.encode.length < level →
      Reads (readContent (readEntity level) content) d.encode d
  | _, _, .empty, _, _, _ => ByteReader.reads_pure _
  | _, _, .one h, hc, _, hlevel => h.reads hc (Nat.le_of_lt hlevel) (fun _ => hlevel)
  | _, _, .fields h, hc, _, hlevel =>
      (h.reads (fun p hp => hc p (List.mem_cons_of_mem _ hp)) (Nat.le_of_lt hlevel)
        (fun _ _ _ => hlevel)).map _

end

/-- A datum that fits the entity is read back from its bytes, whatever
follows them. -/
theorem decode_encode {e : Entity} {d : Datum} (h : Fits (.entity e) d)
    (hc : ∀ p ∈ d.subdata, p.Countable) (after : List UInt8) :
    decode e (d.encode ++ after) = .ok (d, after) := by
  have hlevel : d.encode.length < (d.encode ++ after).length + 1 := by
    rw [List.length_append]
    omega
  exact h.reads hc (Nat.le_of_lt hlevel) (fun _ => hlevel) after

end Datum

end ModelExport
