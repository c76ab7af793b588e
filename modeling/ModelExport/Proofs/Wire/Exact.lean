import ModelExport.Proofs.Wire.Stored

/-!
# Data stand for one value

`Stored` takes a value to data and back. Here the converse: what a datum
is read as is stored as that datum again, so that what is known of the
data that a reader gives holds of the value itself. The one exception is
the table of types, where a name that is written twice has its last type
(`Program.exists_of_ofDatum?`).
-/

namespace ModelExport

namespace Datum

/-! ## Parts of data -/

theorem text_of_text? {d : Datum} {s : String} (h : d.text? = some s) : .text s = d := by
  cases d <;> cases h
  rfl

theorem uint_of_uint? {d : Datum} {n : UInt64} (h : d.uint? = some n) : .uint n = d := by
  cases d <;> cases h
  rfl

theorem int_of_int? {d : Datum} {n : Int64} (h : d.int? = some n) : .int n = d := by
  cases d <;> cases h
  rfl

theorem single_of_single? {d : Datum} {x : Single} (h : d.single? = some x) : .single x = d := by
  cases d <;> cases h
  rfl

theorem ofPosition_of_position? {α : Type} [DecidableEq α] {all : List α} (hnodup : all.Nodup)
    {d : Datum} {a : α} (h : position? all d = some a) : ofPosition all a = d := by
  unfold position? at h
  split at h
  · obtain ⟨hlt, rfl⟩ := List.getElem?_eq_some_iff.mp h
    rw [ofPosition, hnodup.idxOf_getElem, unit]
  · cases h

theorem map_of_mapM {α β : Type} {f : α → Option β} {g : β → α}
    (h : ∀ a b, f a = some b → g b = a) {l : List α} {bs : List β} (hl : l.mapM f = some bs) :
    bs.map g = l := by
  induction l generalizing bs with
  | nil =>
      obtain rfl : [] = bs := by simpa using hl
      rfl
  | cons a l ih =>
      simp only [List.mapM_cons, Option.bind_eq_bind, Option.bind_eq_some_iff, Option.pure_def,
        Option.some.injEq] at hl
      obtain ⟨b, hb, bs, hbs, rfl⟩ := hl
      rw [List.map_cons, h a b hb, ih hbs]

theorem map_of_items? {α : Type} {f : Datum → Option α} {g : α → Datum}
    (h : ∀ d a, f d = some a → g a = d) {d : Datum} {l : List α} (hl : d.items? f = some l) :
    .list (l.map g) = d := by
  unfold items? at hl
  split at hl
  · rw [map_of_mapM h hl]
  · cases hl

theorem map_of_entries? {α β : Type} {key : Datum → Option α} {value : Datum → Option β}
    {f : α → Datum} {g : β → Datum} (hkey : ∀ d a, key d = some a → f a = d)
    (hvalue : ∀ d b, value d = some b → g b = d) {d : Datum} {l : List (α × β)}
    (hl : d.entries? key value = some l) : .table (l.map fun e => (f e.1, g e.2)) = d := by
  unfold entries? at hl
  split at hl
  · refine congrArg Datum.table (map_of_mapM ?_ hl)
    rintro ⟨k, v⟩ ⟨a, b⟩ h
    simp only [Option.bind_eq_bind, Option.bind_eq_some_iff, Option.pure_def, Option.some.injEq,
      Prod.mk.injEq] at h
    obtain ⟨_, hk, _, hv, rfl, rfl⟩ := h
    rw [hkey k _ hk, hvalue v _ hv]
  · cases hl

end Datum

/-- The datum that a value was read from. -/
theorem Wire.exists_of_decode {α : Type} [Wire α] {bytes rest : List UInt8} {a : α}
    (h : decode bytes = .ok (a, rest)) :
    ∃ d, Datum.decode (entity α) bytes = .ok (d, rest) ∧ ofDatum? d = some a := by
  unfold decode at h
  cases hread : Datum.decode (entity α) bytes with
  | error e =>
      rw [hread] at h
      cases h
  | ok s =>
      cases hd : (ofDatum? s.1 : Option α) with
      | none =>
          simp only [hread, hd, bind, Except.bind] at h
          cases h
      | some b =>
          simp only [hread, hd, bind, Except.bind] at h
          cases h
          exact ⟨s.1, rfl, hd⟩

open Datum (map_of_items?)

/-! ## Types of variables -/

theorem ElementKind.toDatum_of_ofDatum? {d : Datum} {k : ElementKind} (h : ofDatum? d = some k) :
    k.toDatum = d := Datum.ofPosition_of_position? (by decide) h

theorem Extent.toDatum_of_ofDatum? {d : Datum} {x : Extent} (h : ofDatum? d = some x) :
    x.toDatum = d := by
  unfold ofDatum? at h
  split at h <;> cases h <;> rfl

theorem Descriptor.toDatum_of_ofDatum? {d : Datum} {t : Descriptor} (h : ofDatum? d = some t) :
    t.toDatum = d := by
  unfold ofDatum? at h
  split at h
  all_goals
    simp only [Option.map_eq_some_iff, Option.bind_eq_bind, Option.bind_eq_some_iff,
      Option.pure_def, Option.some.injEq, reduceCtorEq] at h
  · obtain ⟨kind, hkind, rfl⟩ := h
    rw [toDatum, kind.toDatum_of_ofDatum? hkind]
  · obtain ⟨kind, hkind, shape, hshape, rfl⟩ := h
    rw [toDatum, ElementKind.toDatum_of_ofDatum? hkind,
      map_of_items? (fun _ _ => Extent.toDatum_of_ofDatum?) hshape]
  · obtain ⟨key, hkey, value, hvalue, rfl⟩ := h
    rw [toDatum, ElementKind.toDatum_of_ofDatum? hkey, toDatum_of_ofDatum? hvalue]

/-! ## Literals -/

theorem TensorData.toDatum_of_ofDatum? {d : Datum} {t : TensorData} (h : ofDatum? d = some t) :
    t.toDatum = d := by
  unfold ofDatum? at h
  split at h
  · obtain ⟨values, hvalues, rfl⟩ := Option.map_eq_some_iff.mp h
    rw [toDatum, map_of_items? (fun _ _ => Datum.int_of_int?) hvalues]
  · obtain ⟨values, hvalues, rfl⟩ := Option.map_eq_some_iff.mp h
    rw [toDatum, map_of_items? (fun _ _ => Datum.single_of_single?) hvalues]
  · obtain ⟨values, hvalues, rfl⟩ := Option.map_eq_some_iff.mp h
    rw [toDatum, Datum.texts, map_of_items? (fun _ _ => Datum.text_of_text?) hvalues]
  · cases h

theorem Tensor.toDatum_of_ofDatum? {d : Datum} {t : Tensor} (h : ofDatum? d = some t) :
    t.toDatum = d := by
  unfold ofDatum? at h
  split at h
  · simp only [Option.bind_eq_bind, Option.bind_eq_some_iff, Option.pure_def,
      Option.some.injEq] at h
    obtain ⟨dims, hdims, data, hdata, rfl⟩ := h
    rw [toDatum, map_of_items? (fun _ _ => Datum.uint_of_uint?) hdims,
      TensorData.toDatum_of_ofDatum? hdata]
  · cases h

theorem Value.toDatum_of_ofDatum? {d : Datum} {v : Value} (h : ofDatum? d = some v) :
    v.toDatum = d := by
  unfold ofDatum? at h
  split at h
  · cases h
    rfl
  · cases h
    rfl
  · cases h
    rfl
  · obtain ⟨t, ht, rfl⟩ := Option.map_eq_some_iff.mp h
    rw [toDatum, Tensor.toDatum_of_ofDatum? ht]
  · cases h

/-! ## Expressions -/

theorem Parameter.toDatum_of_ofDatum? {d : Datum} {p : Parameter} (h : ofDatum? d = some p) :
    p.toDatum = d := by
  unfold ofDatum? at h
  split at h
  · obtain ⟨type, htype, rfl⟩ := Option.map_eq_some_iff.mp h
    rw [toDatum, Descriptor.toDatum_of_ofDatum? htype]
  · cases h

theorem Parameter.map_toDatum_of_items? {d : Datum} {ps : List Parameter}
    (h : d.items? ofDatum? = some ps) : .list (ps.map toDatum) = d :=
  map_of_items? (fun _ _ => toDatum_of_ofDatum?) h

namespace Expr

mutual

theorem toDatum_of_ofDatum? {d : Datum} {e : Expr} (h : ofDatum? d = some e) : e.toDatum = d := by
  unfold ofDatum? at h
  split at h
  all_goals
    simp only [Option.map_eq_some_iff, Option.bind_eq_bind, Option.bind_eq_some_iff,
      Option.pure_def, Option.some.injEq, reduceCtorEq] at h
  · obtain ⟨v, hv, rfl⟩ := h
    rw [toDatum, Value.toDatum_of_ofDatum? hv]
  · subst h
    rfl
  · subst h
    rfl
  · obtain ⟨target, htarget, args, hargs, rfl⟩ := h
    rw [toDatum, toDatum_of_ofDatum? htarget, toData_of_ofData? hargs]
  · obtain ⟨bindings, hbindings, rfl⟩ := h
    rw [toDatum, bindingsToData_of_bindingsOfData? hbindings]
  · obtain ⟨value, hvalue, rfl⟩ := h
    rw [toDatum, toDatum_of_ofDatum? hvalue]
  · obtain ⟨inits, hinits, condition, hcondition, body, hbody, step, hstep, rfl⟩ := h
    rw [toDatum, bindingsToData_of_bindingsOfData? hinits, toDatum_of_ofDatum? hcondition,
      toData_of_ofData? hbody, toData_of_ofData? hstep]
  · obtain ⟨sequence, hsequence, body, hbody, rfl⟩ := h
    rw [toDatum, toDatum_of_ofDatum? hsequence, toData_of_ofData? hbody]
  · obtain ⟨condition, hcondition, thenBody, hthen, rfl⟩ := h
    rw [toDatum, toDatum_of_ofDatum? hcondition, toData_of_ofData? hthen]
  · obtain ⟨condition, hcondition, thenBody, hthen, elseBody, helse, rfl⟩ := h
    rw [toDatum, toDatum_of_ofDatum? hcondition, toData_of_ofData? hthen, toData_of_ofData? helse]
  · obtain ⟨container, hcontainer, path, hpath, rfl⟩ := h
    rw [toDatum, toDatum_of_ofDatum? hcontainer, toData_of_ofData? hpath]
  · obtain ⟨container, hcontainer, path, hpath, fallback, hfallback, rfl⟩ := h
    rw [toDatum, toDatum_of_ofDatum? hcontainer, toData_of_ofData? hpath,
      toDatum_of_ofDatum? hfallback]
  · obtain ⟨params, hparams, body, hbody, rfl⟩ := h
    rw [toDatum, Parameter.map_toDatum_of_items? hparams, toData_of_ofData? hbody]
  · subst h
    rfl
termination_by sizeOf d

theorem toData_of_ofData? {ds : List Datum} {es : List Expr} (h : ofData? ds = some es) :
    toData es = ds := by
  cases ds with
  | nil =>
      obtain rfl := Option.some.inj h
      rfl
  | cons d ds =>
      simp only [ofData?, Option.bind_eq_bind, Option.bind_eq_some_iff, Option.pure_def,
        Option.some.injEq] at h
      obtain ⟨e, he, es, hes, rfl⟩ := h
      rw [toData, toDatum_of_ofDatum? he, toData_of_ofData? hes]
termination_by sizeOf ds

theorem bindingsToData_of_bindingsOfData? {ds : List Datum} {bs : List Binding}
    (h : bindingsOfData? ds = some bs) : bindingsToData bs = ds := by
  unfold bindingsOfData? at h
  split at h
  · obtain rfl := Option.some.inj h
    rfl
  · simp only [Option.bind_eq_bind, Option.bind_eq_some_iff, Option.pure_def,
        Option.some.injEq] at h
    obtain ⟨e, he, bs, hbs, rfl⟩ := h
    rw [bindingsToData, bindingToDatum, toDatum_of_ofDatum? he,
      bindingsToData_of_bindingsOfData? hbs]
  · cases h
termination_by sizeOf ds

end

end Expr

/-! ## Models -/

theorem Signature.toDatum_of_ofDatum? {d : Datum} {s : Signature} (h : ofDatum? d = some s) :
    s.toDatum = d := by
  unfold ofDatum? at h
  split at h
  · simp only [Option.bind_eq_bind, Option.bind_eq_some_iff, Option.pure_def,
      Option.some.injEq] at h
    obtain ⟨inputs, hinputs, outputs, houtputs, rfl⟩ := h
    rw [toDatum, Parameter.map_toDatum_of_items? hinputs,
      Parameter.map_toDatum_of_items? houtputs]
  · cases h

theorem Function.toDatum_of_ofDatum? {d : Datum} {f : Function} (h : ofDatum? d = some f) :
    f.toDatum = d := by
  unfold ofDatum? at h
  split at h
  · simp only [Option.bind_eq_bind, Option.bind_eq_some_iff, Option.pure_def,
      Option.some.injEq] at h
    obtain ⟨inputs, hinputs, outputs, houtputs, body, hbody, rfl⟩ := h
    rw [toDatum, Parameter.map_toDatum_of_items? hinputs,
      Parameter.map_toDatum_of_items? houtputs, Expr.toData_of_ofData? hbody]
  · cases h

/-- The types are the entries of the datum written one by one; all else is as it stands there. -/
theorem Program.exists_of_ofDatum? {d : Datum} {p : Program} (h : ofDatum? d = some p) :
    ∃ entries, p.types = Table.ofList entries
      ∧ d = .record [.text p.name, p.signature.toDatum, .list (Expr.toData p.body),
        .list (p.functions.map Function.toDatum),
        .table (entries.map fun e => (.text e.1, e.2.toDatum))] := by
  unfold ofDatum? Table.ofDatum? at h
  split at h
  · simp only [Option.map_eq_some_iff, Option.bind_eq_bind, Option.bind_eq_some_iff,
      Option.pure_def, Option.some.injEq] at h
    obtain ⟨signature, hsignature, body, hbody, functions, hfunctions, _, ⟨entries, hentries, rfl⟩,
      rfl⟩ := h
    refine ⟨entries, rfl, ?_⟩
    rw [Signature.toDatum_of_ofDatum? hsignature, Expr.toData_of_ofData? hbody,
      map_of_items? (fun _ _ => Function.toDatum_of_ofDatum?) hfunctions,
      Datum.map_of_entries? (fun _ _ => Datum.text_of_text?)
        (fun _ _ => Descriptor.toDatum_of_ofDatum?) hentries]
  · cases h

/-- The envelope is as it stands in the datum. -/
theorem Model.exists_of_ofDatum? {d : Datum} {m : Model} (h : ofDatum? d = some m) :
    ∃ program, Program.ofDatum? program = some m.program
      ∧ d = .record [.int m.irVersion, .text m.producerName, .text m.producerVersion,
        .text m.domain, .int m.modelVersion, program] := by
  unfold ofDatum? at h
  split at h
  · obtain ⟨program, hprogram, rfl⟩ := Option.map_eq_some_iff.mp h
    exact ⟨_, hprogram, rfl⟩
  · cases h

end ModelExport
