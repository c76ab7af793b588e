import ModelExport.Export.Save
import ModelExport.Proofs.Context.Operation
import ModelExport.Proofs.Files

/-!
# Where the results go

The bytes of a model and its text are kept apart by the ways of their paths: a
model that is saved leaves the text at the end of the one and the bytes at the
end of the other, and only the text where both are one (`Model.content?_save`).

Options are refused when both paths have one location. That settles it for
paths that both start by staying and for paths that both do not. Of two paths
with one way, one of which starts by staying, the options make no matter
(`Options.accepted_places`).
-/

namespace ModelExport

open Location (Downward startsHere way)

/-! ## Saving -/

namespace Storing

theorem write_eq_ok {path : String} {content : List UInt8} {f f' : Files}
    (h : write path content f = .ok () f') : f.write path content = .ok f' := by
  unfold write at h
  split at h
  · next hwrite =>
      cases h
      exact hwrite
  · cases h

theorem ofExcept_eq_ok {α : Type} {x : Except ExportError α} {a : α} {f f' : Files}
    (h : ofExcept x f = .ok a f') : x = .ok a ∧ f' = f := by
  cases x with
  | error e => cases h
  | ok b =>
      cases h
      exact ⟨rfl, rfl⟩

end Storing

namespace Model

variable {m : Model} {o : Options} {p q : String} {f f' : Files}

theorem save_eq_ok (hp : o.modelPath = some p) (hq : o.jsonPath = some q)
    (h : m.save o f = .ok () f') :
    ∃ g text, f.write p m.encode = .ok g ∧ m.toText = .ok text
      ∧ g.write q (utf8 text) = .ok f' := by
  unfold save at h
  rw [hp, hq] at h
  change (Storing.write p m.encode >>= fun _ =>
    Storing.ofExcept m.toText >>= fun text => Storing.write q (utf8 text)) f = .ok () f' at h
  obtain ⟨_, g, hbytes, hrest⟩ := bind_eq_ok h
  obtain ⟨text, g', hform, hlast⟩ := bind_eq_ok hrest
  obtain ⟨htext, rfl⟩ := Storing.ofExcept_eq_ok hform
  exact ⟨g', text, Storing.write_eq_ok hbytes, htext, Storing.write_eq_ok hlast⟩

/-- The text is written last. -/
theorem content?_save (hp : o.modelPath = some p) (hq : o.jsonPath = some q)
    (hdownp : Downward p) (hdownq : Downward q) (h : m.save o f = .ok () f') :
    ∃ text, m.toText = .ok text ∧ ∀ place, f'.content? place =
      if place = way q then some (utf8 text)
      else if place = way p then some m.encode
      else f.content? place := by
  obtain ⟨g, text, hbytes, htext, hlast⟩ := save_eq_ok hp hq h
  refine ⟨text, htext, fun place => ?_⟩
  rw [Files.content?_write hdownq hlast, Files.content?_write hdownp hbytes]

end Model

/-! ## Accepted options -/

namespace Options

variable {o : Options} {p q : String}

theorem samePlace_eq_true_iff (hp : o.modelPath = some p) (hq : o.jsonPath = some q)
    (hdownp : Downward p) (hdownq : Downward q) :
    o.samePlace = true ↔ startsHere p = startsHere q ∧ way p = way q := by
  rw [samePlace, hp, hq, decide_eq_true_iff, Location.ofPath_eq_iff, hdownp.relative,
    hdownq.relative]
  exact and_iff_right rfl

theorem validate_eq_ok_iff (o : Options) :
    o.validate = .ok () ↔ o.name ≠ some "" ∧ ¬ o.samePlace = true := by
  unfold validate
  split
  · next hsame => simp [hsame]
  · next hsame =>
      split
      · next hname => simp [hname]
      · next hname => simp [hsame, hname]

/-- Options with downward paths for both results are accepted, the name being no obstacle, when
the paths lead different ways or just one of them starts by staying. Whenever a model is saved
under them, the text is at the end of its way, and the bytes are at the end of theirs unless that
is the same one. -/
theorem accepted_places (hp : o.modelPath = some p) (hq : o.jsonPath = some q)
    (hdownp : Downward p) (hdownq : Downward q) :
    (o.validate = .ok ()
        ↔ o.name ≠ some "" ∧ (way p ≠ way q ∨ startsHere p ≠ startsHere q))
      ∧ ∀ (m : Model) (f f' : Files), m.save o f = .ok () f' →
          ∃ text, m.toText = .ok text ∧ ∀ place, f'.content? place =
            if place = way q then some (utf8 text)
            else if place = way p then some m.encode
            else f.content? place := by
  refine ⟨?_, fun m f f' => Model.content?_save hp hq hdownp hdownq⟩
  rw [validate_eq_ok_iff, samePlace_eq_true_iff hp hq hdownp hdownq, and_comm (b := way p = way q),
    not_and_or]

/-- Two files in one folder, which either path reaches by a detour. -/
theorem accepted_places_detours :
    let o : Options := { modelPath := some "out//m.pmf", jsonPath := some "./out/./m.json" }
    (Downward "out//m.pmf" ∧ Downward "./out/./m.json")
      ∧ o.validate = .ok ()
      ∧ ∀ (m : Model) (f f' : Files), m.save o f = .ok () f' →
          f'.content? ["out", "m.pmf"] = some m.encode := by
  intro o
  have hdownp : Downward "out//m.pmf" := ⟨by decide, by decide⟩
  have hdownq : Downward "./out/./m.json" := ⟨by decide, by decide⟩
  have hways : way "out//m.pmf" = ["out", "m.pmf"] ∧ way "./out/./m.json" = ["out", "m.json"] := by
    decide
  obtain ⟨hvalid, hsave⟩ := accepted_places (o := o) rfl rfl hdownp hdownq
  refine ⟨⟨hdownp, hdownq⟩, hvalid.mpr ⟨nofun, .inl (by decide)⟩, fun m f f' h => ?_⟩
  obtain ⟨text, -, hcontent⟩ := hsave m f f' h
  rw [hcontent, hways.1, hways.2]
  rfl

/-- One path is the other one behind a step that stays: the options are accepted, and a model that
is saved under them leaves no bytes. -/
theorem one_place_accepted :
    let o : Options := { modelPath := some "out.pmf", jsonPath := some "./out.pmf" }
    (Downward "out.pmf" ∧ Downward "./out.pmf")
      ∧ o.validate = .ok () ∧ way "out.pmf" = way "./out.pmf"
      ∧ ∀ (m : Model) (f f' : Files), m.save o f = .ok () f' →
          ∃ text, m.toText = .ok text ∧ f'.content? ["out.pmf"] = some (utf8 text) := by
  intro o
  have hdownp : Downward "out.pmf" := ⟨by decide, by decide⟩
  have hdownq : Downward "./out.pmf" := ⟨by decide, by decide⟩
  have hway : way "./out.pmf" = ["out.pmf"] := by decide
  refine ⟨⟨hdownp, hdownq⟩, by decide, by decide, fun m f f' h => ?_⟩
  obtain ⟨text, htext, hcontent⟩ := Model.content?_save (o := o) rfl rfl hdownp hdownq h
  exact ⟨text, htext, by rw [hcontent, hway, if_pos rfl]⟩

end Options

end ModelExport
