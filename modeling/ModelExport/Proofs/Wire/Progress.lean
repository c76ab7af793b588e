import ModelExport.Proofs.Wire.Binary

/-!
# Readers take bytes

The binary notation says by numbers in the input how many parts follow, so
nothing that is declared bounds what a reader does: the bytes have to.
`ByteReader.Takes` states of a reader what stands in proportion to the
bytes that it has taken. It composes as readers do. By it every part of a
datum takes a byte of its own, and what is read is no larger than what was
taken (`Datum.takes_readShape`): at most as many choices, and no text, list
or table with more parts.

Two things follow for input of any kind. A count that goes beyond the bytes
is not followed further than the bytes go (`Datum.readMany_of_length_lt`).
And the budget of levels never decides: an entity inside another one starts
later, so as many levels as there are bytes are enough for every answer,
errors included (`Datum.readEntity_eq_decode`).
-/

namespace ModelExport

namespace ByteReader

variable {α β : Type}

/-- What the reader gives stands in the relation to the number of bytes that it took. -/
def Takes (read : ByteReader α) (P : α → Nat → Prop) : Prop :=
  ∀ bytes a rest, read bytes = .ok (a, rest) → ∃ n, bytes.length = n + rest.length ∧ P a n

section Takes

variable {read : ByteReader α} {next : α → ByteReader β} {P : α → Nat → Prop}

theorem bind_eq_ok {bytes : List UInt8} {b : β} {rest : List UInt8}
    (h : (read >>= next) bytes = .ok (b, rest)) :
    ∃ a middle, read bytes = .ok (a, middle) ∧ next a middle = .ok (b, rest) := by
  change (read bytes >>= fun s => next s.1 s.2) = _ at h
  cases hread : read bytes with
  | error e =>
      rw [hread] at h
      cases h
  | ok s =>
      rw [hread] at h
      exact ⟨s.1, s.2, rfl, h⟩

theorem Takes.mono {Q : α → Nat → Prop} (h : Takes read P) (hPQ : ∀ a n, P a n → Q a n) :
    Takes read Q := by
  intro bytes a rest hread
  obtain ⟨n, hlength, hP⟩ := h bytes a rest hread
  exact ⟨n, hlength, hPQ a n hP⟩

theorem takes_pure {a : α} (h : P a 0) : Takes (pure a) P := by
  intro bytes _ rest hread
  obtain ⟨rfl, rfl⟩ := Prod.mk.inj (Except.ok.inj hread)
  exact ⟨0, (Nat.zero_add _).symm, h⟩

theorem takes_throw (e : WireError) : Takes (throw e) P := nofun

theorem Takes.bind {Q : α → β → Nat → Prop} {R : β → Nat → Prop} (h : Takes read P)
    (hnext : ∀ a, Takes (next a) (Q a)) (hR : ∀ a b m n, P a m → Q a b n → R b (m + n)) :
    Takes (read >>= next) R := by
  intro bytes b rest hread
  obtain ⟨a, middle, hfirst, hsecond⟩ := bind_eq_ok hread
  obtain ⟨m, hm, hP⟩ := h bytes a middle hfirst
  obtain ⟨n, hn, hQ⟩ := hnext a middle b rest hsecond
  exact ⟨m + n, by omega, hR a b m n hP hQ⟩

/-- The last step of a sequence takes no bytes. -/
theorem Takes.last {R : β → Nat → Prop} (h : Takes read P) (f : α → β)
    (hR : ∀ a n, P a n → R (f a) n) : Takes (read >>= fun a => pure (f a)) R := by
  refine h.bind (Q := fun a b n => b = f a ∧ n = 0) (fun a => takes_pure ⟨rfl, rfl⟩) ?_
  rintro a _ m _ hP ⟨rfl, rfl⟩
  exact hR a m hP

theorem Takes.map {R : β → Nat → Prop} (h : Takes read P) (f : α → β)
    (hR : ∀ a n, P a n → R (f a) n) : Takes (f <$> read) R := by
  rw [map_eq_pure_bind]
  exact h.last f hR

/-- Whatever follows a reader that takes a byte. -/
theorem Takes.bind_pos {Q : α → β → Nat → Prop} (h : Takes read fun _ n => 0 < n)
    (hnext : ∀ a, Takes (next a) (Q a)) : Takes (read >>= next) fun _ n => 0 < n :=
  h.bind hnext fun _ _ _ n hm _ => Nat.add_pos_left hm n

theorem takes_byte : Takes byte fun _ n => 0 < n := by
  intro bytes b rest hread
  cases bytes with
  | nil => cases hread
  | cons first bytes =>
      obtain ⟨rfl, rfl⟩ := Prod.mk.inj (Except.ok.inj hread)
      exact ⟨1, Nat.add_comm _ _, Nat.one_pos⟩

theorem takes_take (count : Nat) :
    Takes (take count) fun front n => front.length = n ∧ n = count := by
  intro bytes front rest hread
  unfold take at hread
  split at hread
  · next hcount =>
      rw [List.splitAt_eq] at hread
      obtain ⟨rfl, rfl⟩ := Prod.mk.inj (Except.ok.inj hread)
      refine ⟨count, ?_, by simp [hcount], rfl⟩
      simp; omega
  · cases hread

end Takes

/-! ## Readers that agree on short input -/

/-- The readers give the same answers on fewer bytes than the bound. -/
def AgreeBelow (bound : Nat) (read read' : ByteReader α) : Prop :=
  ∀ bytes, bytes.length < bound → read bytes = read' bytes

section AgreeBelow

variable {bound : Nat} {read read' : ByteReader α} {next next' : α → ByteReader β}

theorem agreeBelow_rfl : AgreeBelow bound read read := fun _ _ => rfl

theorem AgreeBelow.bind (h : AgreeBelow bound read read') (htakes : Takes read fun _ _ => True)
    (hnext : ∀ a, AgreeBelow bound (next a) (next' a)) :
    AgreeBelow bound (read >>= next) (read' >>= next') := by
  intro bytes hbytes
  change (read bytes >>= fun s => next s.1 s.2) = (read' bytes >>= fun s => next' s.1 s.2)
  rw [← h bytes hbytes]
  cases hread : read bytes with
  | error e => rfl
  | ok s =>
      obtain ⟨n, hlength, -⟩ := htakes bytes s.1 s.2 hread
      exact hnext s.1 s.2 (by omega)

/-- Behind a reader that takes a byte there is one byte less. -/
theorem AgreeBelow.bind_succ (h : AgreeBelow (bound + 1) read read')
    (htakes : Takes read fun _ n => 0 < n) (hnext : ∀ a, AgreeBelow bound (next a) (next' a)) :
    AgreeBelow (bound + 1) (read >>= next) (read' >>= next') := by
  intro bytes hbytes
  change (read bytes >>= fun s => next s.1 s.2) = (read' bytes >>= fun s => next' s.1 s.2)
  rw [← h bytes hbytes]
  cases hread : read bytes with
  | error e => rfl
  | ok s =>
      obtain ⟨n, hlength, hpos⟩ := htakes bytes s.1 s.2 hread
      exact hnext s.1 s.2 (by omega)

theorem AgreeBelow.map (h : AgreeBelow bound read read') (f : α → β) :
    AgreeBelow bound (f <$> read) (f <$> read') := by
  intro bytes hbytes
  change (read bytes >>= fun s => pure (f s.1, s.2)) = (read' bytes >>= fun s => pure (f s.1, s.2))
  rw [h bytes hbytes]

theorem AgreeBelow.mono {smaller : Nat} (h : AgreeBelow bound read read') (hle : smaller ≤ bound) :
    AgreeBelow smaller read read' := fun bytes hbytes => h bytes (Nat.lt_of_lt_of_le hbytes hle)

end AgreeBelow

end ByteReader

open ByteReader (Takes AgreeBelow takes_pure takes_throw takes_byte takes_take)

/-! ## Readers of parts -/

theorem Varint.takes_readGroups (top bound : Nat) :
    Takes (readGroups top bound) fun _ n => 0 < n := by
  induction bound with
  | zero =>
      refine takes_byte.bind_pos (Q := fun _ _ _ => True) fun b => ?_
      split
      · exact takes_pure trivial
      · exact takes_throw _
  | succ bound ih =>
      refine takes_byte.bind_pos (Q := fun _ _ _ => True) fun b => ?_
      split
      · exact takes_pure trivial
      · exact ih.last _ fun _ _ _ => trivial

theorem utf8_of_ofUtf8? {bytes : List UInt8} {s : String} (h : ofUtf8? bytes = some s) :
    utf8 s = bytes := by
  unfold ofUtf8? String.fromUTF8? at h
  split at h
  · obtain rfl := Option.some.inj h
    rfl
  · cases h

namespace Datum

/-- How many parts follow the number that is written in front of them. -/
def extent : Datum → Nat
  | .text s => (utf8 s).length
  | .list items => items.length
  | .table entries => entries.length
  | _ => 0

def isChoice : Datum → Bool
  | .variant _ _ => true
  | _ => false

/-- So many bytes are enough for so many parts, for the choices among the
data, and for the extent of each of the data. -/
structure Backed (data : List Datum) (parts n : Nat) : Prop where
  parts : parts ≤ n
  choices : data.countP isChoice ≤ n
  extents : ∀ p ∈ data, p.extent ≤ n

theorem backed_nil (n : Nat) : Backed [] 0 n where
  parts := Nat.zero_le n
  choices := Nat.zero_le n
  extents := nofun

theorem Backed.append {front back : List Datum} {k l m n : Nat} (h : Backed front k m)
    (h' : Backed back l n) : Backed (front ++ back) (k + l) (m + n) where
  parts := Nat.add_le_add h.parts h'.parts
  choices := by
    rw [List.countP_append]
    exact Nat.add_le_add h.choices h'.choices
  extents p hp := by
    rcases List.mem_append.mp hp with hp | hp
    · exact Nat.le_add_right_of_le (h.extents p hp)
    · exact Nat.le_add_left_of_le (h'.extents p hp)

/-- Data with fewer parts, in front of which bytes were taken. -/
theorem Backed.behind {data : List Datum} {k l m n : Nat} (h : Backed data k n)
    (hparts : l ≤ m + n) : Backed data l (m + n) where
  parts := hparts
  choices := Nat.le_add_left_of_le h.choices
  extents p hp := Nat.le_add_left_of_le (h.extents p hp)

/-- The bytes that were taken first are enough for what encloses the data. -/
theorem Backed.cons {data : List Datum} {d : Datum} {k l m n : Nat} (h : Backed data k n)
    (hchoice : d.isChoice = true → 0 < m) (hextent : d.extent ≤ m + n) (hparts : l ≤ m + n) :
    Backed (d :: data) l (m + n) where
  parts := hparts
  choices := by
    have hrest := h.choices
    rw [List.countP_cons]
    split
    · next hd =>
        have := hchoice hd
        omega
    · omega
  extents p hp := by
    rcases List.mem_cons.mp hp with rfl | hp
    · exact hextent
    · exact Nat.le_add_left_of_le (h.extents p hp)

/-- What encloses the data and is no choice. -/
theorem Backed.enclose {data : List Datum} {d : Datum} {k l m n : Nat} (h : Backed data k n)
    (hchoice : d.isChoice = false) (hextent : d.extent ≤ m + n) (hparts : l ≤ m + n) :
    Backed (d :: data) l (m + n) :=
  h.cons (fun hd => by simp [hchoice] at hd) hextent hparts

/-- A datum with nothing inside. -/
theorem backed_singleton {d : Datum} {l n : Nat} (hchoice : d.isChoice = false)
    (hextent : d.extent ≤ n) (hparts : l ≤ n) : Backed [d] l n := by
  rw [← Nat.zero_add n] at hextent hparts ⊢
  exact (backed_nil n).enclose hchoice hextent hparts

theorem subdataOfItems_eq_flatMap (items : List Datum) :
    subdataOfItems items = items.flatMap subdata := by
  induction items with
  | nil => rfl
  | cons d rest ih => rw [subdataOfItems, List.flatMap_cons, ih]

theorem subdataOfEntries_eq_flatMap (entries : List (Datum × Datum)) :
    subdataOfEntries entries = entries.flatMap fun e => e.1.subdata ++ e.2.subdata := by
  induction entries with
  | nil => rfl
  | cons e rest ih => rw [subdataOfEntries, List.flatMap_cons, ih, List.append_assoc]

theorem takes_readFlag (otherwise : WireError) : Takes (readFlag otherwise) fun _ n => 0 < n := by
  refine takes_byte.bind_pos (Q := fun _ _ _ => True) fun b => ?_
  split
  · exact takes_pure trivial
  split
  · exact takes_pure trivial
  · exact takes_throw _

theorem takes_readText : Takes readText fun s n => (utf8 s).length < n := by
  refine (Varint.takes_readGroups 1 9).bind (Q := fun _ s n => (utf8 s).length = n)
    (fun count => ?_) fun _ _ m n hm hn => by omega
  refine (takes_take count).bind (Q := fun front s n => utf8 s = front ∧ n = 0)
    (fun front => ?_) fun _ _ m n hfront hs => by simp [hs, hfront.1]
  split
  · next hs => exact takes_pure ⟨utf8_of_ofUtf8? hs, rfl⟩
  · exact takes_throw _

theorem takes_readMany {α : Type} {read : ByteReader α} {data : α → List Datum}
    (h : Takes read fun a n => Backed (data a) 1 n) (count : Nat) :
    Takes (readMany read count) fun items n => Backed (items.flatMap data) items.length n := by
  induction count with
  | zero => exact takes_pure (backed_nil 0)
  | succ count ih =>
      refine h.bind (Q := fun a items n => ∃ rest, items = a :: rest
        ∧ Backed (rest.flatMap data) rest.length n)
        (fun a => ih.last _ fun rest n hrest => ⟨rest, rfl, hrest⟩) ?_
      rintro a _ m n ha ⟨rest, rfl, hrest⟩
      rw [List.flatMap_cons, List.length_cons, Nat.add_comm rest.length]
      exact ha.append hrest

/-- The reader of an entry of a table. -/
def readEntry (readEntity : Entity → ByteReader Datum) (key value : Shape) :
    ByteReader (Datum × Datum) := do
  return (← readShape readEntity key, ← readShape readEntity value)

section readShape

variable {readEntity : Entity → ByteReader Datum}

theorem readShape_table (key value : Shape) :
    readShape readEntity (.table key value) = Varint.read64 >>= fun count =>
      Datum.table <$> readMany (readEntry readEntity key value) count := rfl

theorem takes_readEntry {key value : Shape}
    (hkey : Takes (readShape readEntity key) fun d n => Backed d.subdata 1 n)
    (hvalue : Takes (readShape readEntity value) fun d n => Backed d.subdata 1 n) :
    Takes (readEntry readEntity key value) fun e n => Backed (e.1.subdata ++ e.2.subdata) 1 n := by
  refine hkey.bind (Q := fun k e n => e.1 = k ∧ Backed e.2.subdata 1 n)
    (fun k => hvalue.last _ fun v n hv => ⟨rfl, hv⟩) ?_
  rintro _ e m n hk ⟨rfl, hv⟩
  have hboth := hk.append hv
  exact { hboth with parts := Nat.le_of_succ_le hboth.parts }

/-- Every part of a datum takes a byte, and the datum is no larger than what is taken. -/
theorem takes_readShape (h : ∀ e, Takes (readEntity e) fun d n => Backed d.subdata 1 n)
    (s : Shape) : Takes (readShape readEntity s) fun d n => Backed d.subdata 1 n := by
  induction s with
  | bool =>
      exact (takes_readFlag .badFlag).map _ fun b n hn => backed_singleton rfl (Nat.zero_le n) hn
  | uint =>
      exact (Varint.takes_readGroups 1 9).map _ fun k n hn =>
        backed_singleton rfl (Nat.zero_le n) hn
  | int =>
      exact (Varint.takes_readGroups 1 9).map _ fun k n hn =>
        backed_singleton rfl (Nat.zero_le n) hn
  | single =>
      refine (takes_take 4).map _ fun front n hn => backed_singleton rfl (Nat.zero_le n) ?_
      omega
  | text =>
      exact takes_readText.map _ fun s n hn =>
        backed_singleton rfl (Nat.le_of_lt hn) (Nat.succ_le_of_lt (Nat.zero_lt_of_lt hn))
  | list item ih =>
      refine (Varint.takes_readGroups 1 9).bind (fun count => (takes_readMany ih count).map
        (R := fun d n => ∃ items, d = .list items ∧ Backed (items.flatMap subdata) items.length n)
        Datum.list fun items n hitems => ⟨items, rfl, hitems⟩) ?_
      rintro _ _ m n hm ⟨items, rfl, hitems⟩
      rw [subdata, subdataOfItems_eq_flatMap]
      exact hitems.enclose rfl (Nat.le_add_left_of_le hitems.parts) (Nat.add_pos_left hm n)
  | table key value ihkey ihvalue =>
      have hmany := fun count => takes_readMany (takes_readEntry ihkey ihvalue) count
      rw [readShape_table]
      refine (Varint.takes_readGroups 1 9).bind (fun count => (hmany count).map
        (R := fun d n => ∃ entries, d = .table entries
          ∧ Backed (entries.flatMap fun e => e.1.subdata ++ e.2.subdata) entries.length n)
        Datum.table fun entries n hentries => ⟨entries, rfl, hentries⟩) ?_
      rintro _ _ m n hm ⟨entries, rfl, hentries⟩
      rw [subdata, subdataOfEntries_eq_flatMap]
      exact hentries.enclose rfl (Nat.le_add_left_of_le hentries.parts) (Nat.add_pos_left hm n)
  | entity e => exact h e

theorem takes_readField (h : ∀ e, Takes (readEntity e) fun d n => Backed d.subdata 1 n)
    (field : Field) : Takes (readField readEntity field) fun d n => Backed d.subdata 1 n := by
  unfold readField
  split
  · refine (takes_readFlag .badOption).bind (Q := fun _ d n => Backed d.subdata 0 n)
      (fun given => ?_) fun _ d m n hm hd => hd.behind (Nat.add_pos_left hm n)
    split
    · refine (takes_readShape h field.shape).map _ fun d n hd => ?_
      rw [subdata, ← Nat.zero_add n]
      exact hd.enclose rfl (Nat.zero_le _) (Nat.zero_le _)
    · exact takes_pure (backed_singleton rfl (Nat.zero_le 0) (Nat.zero_le 0))
  · exact takes_readShape h field.shape

theorem takes_readFields (h : ∀ e, Takes (readEntity e) fun d n => Backed d.subdata 1 n)
    (fields : List Field) :
    Takes (readFields readEntity fields) fun ds n =>
      Backed (subdataOfItems ds) fields.length n := by
  induction fields with
  | nil => exact takes_pure (backed_nil 0)
  | cons field rest ih =>
      rw [readFields_cons]
      refine (takes_readField h field).bind (Q := fun d ds n => ∃ after, ds = d :: after
        ∧ Backed (subdataOfItems after) rest.length n)
        (fun d => ih.last _ fun after n hafter => ⟨after, rfl, hafter⟩) ?_
      rintro d _ m n hd ⟨after, rfl, hafter⟩
      rw [subdataOfItems, List.length_cons, Nat.add_comm rest.length]
      exact hd.append hafter

/-- The fields of a record stand for as many parts as there are. -/
theorem takes_record (h : ∀ e, Takes (readEntity e) fun d n => Backed d.subdata 1 n)
    (fields : List Field) : Takes (Datum.record <$> readFields readEntity fields)
      fun d n => Backed d.subdata fields.length n := by
  refine (takes_readFields h fields).map _ fun ds n hds => ?_
  have hparts := hds.parts
  rw [subdata]
  rw [← Nat.zero_add n] at hparts ⊢
  exact hds.enclose rfl (Nat.zero_le _) hparts

theorem takes_readContent (h : ∀ e, Takes (readEntity e) fun d n => Backed d.subdata 1 n)
    (content : Content) :
    Takes (readContent readEntity content) fun d n => Backed d.subdata 0 n := by
  cases content with
  | empty => exact takes_pure (backed_singleton rfl (Nat.zero_le 0) (Nat.zero_le 0))
  | one shape =>
      exact (takes_readShape h shape).mono fun d n hd => { hd with parts := Nat.zero_le n }
  | fields fields =>
      exact (takes_record h fields).mono fun d n hd => { hd with parts := Nat.zero_le n }

end readShape

theorem takes_readEntity (level : Nat) (e : Entity) :
    Takes (readEntity level e) fun d n => Backed d.subdata 1 n := by
  induction level generalizing e with
  | zero => exact takes_throw _
  | succ level ih =>
      rw [readEntity]
      split
      · next fields he =>
          obtain ⟨first, rest, rfl, -⟩ := Entity.exists_first_field he
          exact (takes_record ih _).mono fun d n hd =>
            { hd with parts := Nat.le_trans (Nat.le_add_left 1 _) hd.parts }
      · refine (Varint.takes_readGroups 15 4).bind (Q := fun index d n => ∃ content,
          d = .variant index content ∧ Backed content.subdata 0 n) (fun index => ?_) ?_
        · split
          · exact (takes_readContent ih _).map _ fun content n hn => ⟨content, rfl, hn⟩
          · exact takes_throw _
        · rintro index _ m n hm ⟨content, rfl, hcontent⟩
          rw [subdata]
          exact hcontent.cons (fun _ => hm) (Nat.zero_le _) (Nat.add_pos_left hm n)

/-! ## Counts beyond the bytes -/

/-- A loop that is to read more parts than there are bytes fails, and it fails
the same way however many they are: no part behind the bytes is begun. -/
theorem readMany_of_length_lt {α : Type} {read : ByteReader α} (h : Takes read fun _ n => 0 < n)
    (bytes : List UInt8) :
    ∃ e, ∀ count, bytes.length < count → readMany read count bytes = .error e := by
  have hstep : ∀ count, readMany read (count + 1) bytes = read bytes >>= fun s =>
      readMany read count s.2 >>= fun t => pure (s.1 :: t.1, t.2) := fun _ => rfl
  cases hread : read bytes with
  | error e =>
      refine ⟨e, fun count hcount => ?_⟩
      obtain ⟨count, rfl⟩ := Nat.exists_eq_succ_of_ne_zero (Nat.ne_zero_of_lt hcount)
      rw [hstep, hread]
      rfl
  | ok s =>
      obtain ⟨n, hlength, hpos⟩ := h bytes s.1 s.2 hread
      have hless : s.2.length < bytes.length := by omega
      obtain ⟨e, he⟩ := readMany_of_length_lt h s.2
      refine ⟨e, fun count hcount => ?_⟩
      obtain ⟨count, rfl⟩ := Nat.exists_eq_succ_of_ne_zero (Nat.ne_zero_of_lt hcount)
      rw [hstep, hread]
      change (readMany read count s.2 >>= fun t => pure (s.1 :: t.1, t.2)) = .error e
      rw [he count (by omega)]
      rfl
termination_by bytes.length

/-! ## Levels beyond the bytes -/

section Agree

variable {bound : Nat} {read read' : Entity → ByteReader Datum}

theorem agreeBelow_readMany {α : Type} {read read' : ByteReader α} (h : AgreeBelow bound read read')
    (htakes : Takes read fun _ _ => True) (count : Nat) :
    AgreeBelow bound (readMany read count) (readMany read' count) := by
  induction count with
  | zero => exact ByteReader.agreeBelow_rfl
  | succ count ih => exact h.bind htakes fun a => ih.map (a :: ·)

/-- Where only the entities among the shapes have no byte in front of them. -/
theorem agreeBelow_of_succ (h : ∀ e, AgreeBelow bound (read e) (read' e)) {s : Shape}
    (hs : s.isEntity = false → AgreeBelow (bound + 1) (readShape read s) (readShape read' s)) :
    AgreeBelow bound (readShape read s) (readShape read' s) := by
  cases s with
  | entity e => exact h e
  | _ => exact (hs rfl).mono (Nat.le_succ bound)

variable (h : ∀ e, AgreeBelow bound (read e) (read' e))
  (htakes : ∀ e, Takes (read e) fun d n => Backed d.subdata 1 n)
include h htakes

theorem agreeBelow_readShape_succ (s : Shape) (hs : s.isEntity = false) :
    AgreeBelow (bound + 1) (readShape read s) (readShape read' s) := by
  induction s with
  | bool | uint | int | single | text => exact ByteReader.agreeBelow_rfl
  | list item ih =>
      have hitem := (takes_readShape htakes item).mono fun _ _ _ => trivial
      exact ByteReader.agreeBelow_rfl.bind_succ (Varint.takes_readGroups 1 9) fun count =>
        (agreeBelow_readMany (agreeBelow_of_succ h ih) hitem count).map _
  | table key value ihkey ihvalue =>
      have hkey := takes_readShape htakes key
      have hvalue := takes_readShape htakes value
      have hentry : AgreeBelow bound (readEntry read key value) (readEntry read' key value) :=
        (agreeBelow_of_succ h ihkey).bind (hkey.mono fun _ _ _ => trivial)
          fun k => (agreeBelow_of_succ h ihvalue).map (k, ·)
      rw [readShape_table, readShape_table]
      exact ByteReader.agreeBelow_rfl.bind_succ (Varint.takes_readGroups 1 9) fun count =>
        (agreeBelow_readMany hentry ((takes_readEntry hkey hvalue).mono fun _ _ _ => trivial)
          count).map _
  | entity e => cases hs

theorem agreeBelow_readShape (s : Shape) :
    AgreeBelow bound (readShape read s) (readShape read' s) :=
  agreeBelow_of_succ h (agreeBelow_readShape_succ h htakes s)

theorem agreeBelow_readField_succ {field : Field} (hfield : field.shape.isEntity = false) :
    AgreeBelow (bound + 1) (readField read field) (readField read' field) := by
  unfold readField
  split
  · refine ByteReader.agreeBelow_rfl.bind_succ (takes_readFlag .badOption) fun given => ?_
    split
    · exact (agreeBelow_readShape h htakes field.shape).map _
    · exact ByteReader.agreeBelow_rfl
  · exact agreeBelow_readShape_succ h htakes field.shape hfield

theorem agreeBelow_readField (field : Field) :
    AgreeBelow bound (readField read field) (readField read' field) := by
  unfold readField
  split
  · refine ByteReader.agreeBelow_rfl.bind ((takes_readFlag .badOption).mono fun _ _ _ => trivial)
      fun given => ?_
    split
    · exact (agreeBelow_readShape h htakes field.shape).map _
    · exact ByteReader.agreeBelow_rfl
  · exact agreeBelow_readShape h htakes field.shape

theorem agreeBelow_readFields (fields : List Field) :
    AgreeBelow bound (readFields read fields) (readFields read' fields) := by
  induction fields with
  | nil => exact ByteReader.agreeBelow_rfl
  | cons field rest ih =>
      rw [readFields_cons, readFields_cons]
      exact (agreeBelow_readField h htakes field).bind
        ((takes_readField htakes field).mono fun _ _ _ => trivial) fun d => ih.map (d :: ·)

theorem agreeBelow_readFields_succ {first : Field} {rest : List Field}
    (hfirst : first.shape.isEntity = false) :
    AgreeBelow (bound + 1) (readFields read (first :: rest))
      (readFields read' (first :: rest)) := by
  rw [readFields_cons, readFields_cons]
  exact (agreeBelow_readField_succ h htakes hfirst).bind_succ
    ((takes_readField htakes first).mono fun _ _ hd => hd.parts)
    fun d => (agreeBelow_readFields h htakes rest).map (d :: ·)

theorem agreeBelow_readContent (content : Content) :
    AgreeBelow bound (readContent read content) (readContent read' content) := by
  cases content with
  | empty => exact ByteReader.agreeBelow_rfl
  | one shape => exact agreeBelow_readShape h htakes shape
  | fields fields => exact (agreeBelow_readFields h htakes fields).map _

end Agree

/-- Readers with levels enough for the bytes agree, with the answer and with the error. -/
theorem agreeBelow_readEntity {bound level level' : Nat} (h : bound ≤ level) (h' : bound ≤ level')
    (e : Entity) : AgreeBelow bound (readEntity level e) (readEntity level' e) := by
  induction bound generalizing level level' e with
  | zero => exact fun _ hbytes => absurd hbytes (Nat.not_lt_zero _)
  | succ bound ih =>
      obtain ⟨level, rfl⟩ := Nat.exists_eq_succ_of_ne_zero (Nat.ne_zero_of_lt h)
      obtain ⟨level', rfl⟩ := Nat.exists_eq_succ_of_ne_zero (Nat.ne_zero_of_lt h')
      have hinner := ih (Nat.le_of_succ_le_succ h) (Nat.le_of_succ_le_succ h')
      rw [readEntity, readEntity]
      split
      · next fields he =>
          obtain ⟨first, rest, rfl, hfirst⟩ := Entity.exists_first_field he
          exact (agreeBelow_readFields_succ hinner (takes_readEntity level) hfirst).map _
      · refine ByteReader.agreeBelow_rfl.bind_succ (Varint.takes_readGroups 15 4) fun index => ?_
        split
        · exact (agreeBelow_readContent hinner (takes_readEntity level) _).map _
        · exact ByteReader.agreeBelow_rfl

/-- The budget never decides: more levels than bytes give the same answer. -/
theorem readEntity_eq_decode {level : Nat} {bytes : List UInt8} (h : bytes.length < level)
    (e : Entity) : readEntity level e bytes = decode e bytes :=
  agreeBelow_readEntity h (Nat.le_refl _) e bytes (Nat.lt_succ_self _)

end Datum

end ModelExport
