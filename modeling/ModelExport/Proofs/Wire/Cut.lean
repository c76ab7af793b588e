import ModelExport.Proofs.Wire.Progress

/-!
# Bytes that are cut off

What a reader gives for some bytes it also gives when more follow, and an
error that is not the end of the input stays (`ByteReader.Stable`). So where
a reader needs all of the bytes, a part of them from the front is too
little, and the error says that the input ends
(`Datum.decode_cut`): no cut can look like a shorter form of something else.
-/

namespace ModelExport

namespace ByteReader

variable {α β : Type}

/-- Bytes that follow change nothing unless the reader ran out of bytes. -/
structure Stable (read : ByteReader α) : Prop where
  ok {bytes : List UInt8} {a : α} {rest : List UInt8} (h : read bytes = .ok (a, rest))
    (more : List UInt8) : read (bytes ++ more) = .ok (a, rest ++ more)
  error {bytes : List UInt8} {e : WireError} (h : read bytes = .error e) (he : e ≠ .endOfInput)
    (more : List UInt8) : read (bytes ++ more) = .error e

section Stable

variable {read : ByteReader α} {next : α → ByteReader β}

/-- Of bytes that are all needed a part from the front is too little. -/
theorem Stable.endOfInput_of_cut (h : Stable read) {front more : List UInt8} {a : α}
    (hread : read (front ++ more) = .ok (a, [])) (hmore : more ≠ []) :
    read front = .error .endOfInput := by
  cases hfront : read front with
  | ok s =>
      obtain ⟨a', rest⟩ := s
      have hall := hread.symm.trans (h.ok hfront more)
      have hnil : [] = rest ++ more := congrArg Prod.snd (Except.ok.inj hall)
      exact absurd (List.append_eq_nil_iff.mp hnil.symm).2 hmore
  | error e =>
      by_cases he : e = .endOfInput
      · rw [he]
      · cases hread.symm.trans (h.error hfront he more)

theorem stable_pure (a : α) : Stable (pure a) where
  ok h more := by
    obtain ⟨rfl, rfl⟩ := Prod.mk.inj (Except.ok.inj h)
    rfl
  error h := by cases h

theorem stable_throw (e : WireError) : Stable (throw e : ByteReader α) where
  ok h := by cases h
  error h _ _ := by
    cases h
    rfl

theorem bind_of_eq_ok {bytes : List UInt8} {a : α} {rest : List UInt8}
    (h : read bytes = .ok (a, rest)) : (read >>= next) bytes = next a rest := by
  change (read bytes >>= fun s => next s.1 s.2) = _
  rw [h]
  rfl

theorem bind_of_eq_error {bytes : List UInt8} {e : WireError} (h : read bytes = .error e) :
    (read >>= next) bytes = .error e := by
  change (read bytes >>= fun s => next s.1 s.2) = _
  rw [h]
  rfl

theorem Stable.bind (h : Stable read) (hnext : ∀ a, Stable (next a)) : Stable (read >>= next) where
  ok hread more := by
    obtain ⟨a, middle, hfirst, hsecond⟩ := bind_eq_ok hread
    rw [bind_of_eq_ok (h.ok hfirst more)]
    exact (hnext a).ok hsecond more
  error {bytes e} hread he more := by
    cases hfirst : read bytes with
    | error e' =>
        obtain rfl := Except.error.inj ((bind_of_eq_error hfirst).symm.trans hread)
        exact bind_of_eq_error (h.error hfirst he more)
    | ok s =>
        obtain ⟨a, middle⟩ := s
        rw [bind_of_eq_ok hfirst] at hread
        rw [bind_of_eq_ok (h.ok hfirst more)]
        exact (hnext a).error hread he more

theorem Stable.map (h : Stable read) (f : α → β) : Stable (f <$> read) := by
  rw [map_eq_pure_bind]
  exact h.bind fun a => stable_pure (f a)

theorem stable_byte : Stable byte where
  ok {bytes a rest} h more := by
    cases bytes with
    | nil => cases h
    | cons first bytes =>
        obtain ⟨rfl, rfl⟩ := Prod.mk.inj (Except.ok.inj h)
        rfl
  error {bytes e} h he more := by
    cases bytes with
    | nil => exact absurd (Except.error.inj h).symm he
    | cons first bytes => cases h

theorem stable_take (count : Nat) : Stable (take count) where
  ok {bytes front rest} h more := by
    unfold take at h ⊢
    split at h
    · next hcount =>
        rw [List.splitAt_eq] at h
        obtain ⟨rfl, rfl⟩ := Prod.mk.inj (Except.ok.inj h)
        rw [if_pos (by rw [List.length_append]; omega), List.splitAt_eq,
          List.take_append_of_le_length hcount, List.drop_append_of_le_length hcount]
    · cases h
  error {bytes e} h he more := by
    unfold take at h
    split at h
    · cases h
    · exact absurd (Except.error.inj h).symm he

end Stable

end ByteReader

open ByteReader (Stable stable_pure stable_throw stable_byte stable_take)

/-! ## Every reader is stable -/

theorem Varint.stable_readGroups (top bound : Nat) : Stable (readGroups top bound) := by
  induction bound with
  | zero =>
      refine stable_byte.bind fun b => ?_
      split
      · exact stable_pure _
      · exact stable_throw _
  | succ bound ih =>
      refine stable_byte.bind fun b => ?_
      split
      · exact stable_pure _
      · exact ih.bind fun n => stable_pure _

namespace Datum

theorem stable_readFlag (otherwise : WireError) : Stable (readFlag otherwise) := by
  refine stable_byte.bind fun b => ?_
  split
  · exact stable_pure _
  split
  · exact stable_pure _
  · exact stable_throw _

theorem stable_readText : Stable readText := by
  refine (Varint.stable_readGroups 1 9).bind fun count => (stable_take count).bind fun bytes => ?_
  split
  · exact stable_pure _
  · exact stable_throw _

theorem stable_readMany {α : Type} {read : ByteReader α} (h : Stable read) (count : Nat) :
    Stable (readMany read count) := by
  induction count with
  | zero => exact stable_pure _
  | succ count ih => exact h.bind fun a => ih.bind fun rest => stable_pure _

section readShape

variable {readEntity : Entity → ByteReader Datum} (h : ∀ e, Stable (readEntity e))
include h

theorem stable_readShape (s : Shape) : Stable (readShape readEntity s) := by
  induction s with
  | bool => exact (stable_readFlag .badFlag).map _
  | uint | int => exact (Varint.stable_readGroups 1 9).map _
  | single => exact (stable_take 4).map _
  | text => exact stable_readText.map _
  | list item ih =>
      exact (Varint.stable_readGroups 1 9).bind fun count => (stable_readMany ih count).map _
  | table key value ihkey ihvalue =>
      have hentry : Stable (readEntry readEntity key value) :=
        ihkey.bind fun k => ihvalue.bind fun v => stable_pure _
      rw [readShape_table]
      exact (Varint.stable_readGroups 1 9).bind fun count => (stable_readMany hentry count).map _
  | entity e => exact h e

theorem stable_readField (field : Field) : Stable (readField readEntity field) := by
  unfold readField
  split
  · refine (stable_readFlag .badOption).bind fun given => ?_
    split
    · exact (stable_readShape h field.shape).map _
    · exact stable_pure _
  · exact stable_readShape h field.shape

theorem stable_readFields (fields : List Field) : Stable (readFields readEntity fields) := by
  induction fields with
  | nil => exact stable_pure _
  | cons field rest ih =>
      rw [readFields_cons]
      exact (stable_readField h field).bind fun d => ih.bind fun ds => stable_pure _

theorem stable_readContent (content : Content) : Stable (readContent readEntity content) := by
  cases content with
  | empty => exact stable_pure _
  | one shape => exact stable_readShape h shape
  | fields fields => exact (stable_readFields h fields).map _

end readShape

theorem stable_readEntity (level : Nat) (e : Entity) : Stable (readEntity level e) := by
  induction level generalizing e with
  | zero => exact stable_throw _
  | succ level ih =>
      rw [readEntity]
      split
      · exact (stable_readFields ih _).map _
      · refine (Varint.stable_readGroups 15 4).bind fun index => ?_
        split
        · exact (stable_readContent ih _).map _
        · exact stable_throw _

/-- Bytes of which the reader needs all cannot be cut. The cut bytes leave the
reader with fewer levels, which is why the budget must not decide. -/
theorem decode_cut {e : Entity} {front more : List UInt8} {d : Datum}
    (h : decode e (front ++ more) = .ok (d, [])) (hmore : more ≠ []) :
    decode e front = .error .endOfInput := by
  have hlevel : front.length < (front ++ more).length + 1 := by
    rw [List.length_append]
    omega
  rw [← readEntity_eq_decode hlevel]
  exact (stable_readEntity _ e).endOfInput_of_cut h hmore

end Datum

end ModelExport
