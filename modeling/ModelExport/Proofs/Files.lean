import ModelExport.Files
import ModelExport.Proofs.Location
import ModelExport.Proofs.Table.Lookup

/-!
# What writing does

A file that is written along a downward path stands at the way of the path and
holds what was written; no other file changes (`Files.content?_write`). So two
such paths write one file exactly when they have one way.
-/

namespace ModelExport

namespace Files

open Location (Step Downward way names)

/-- What the file at the place holds. -/
def content? (f : Files) (place : List String) : Option (List UInt8) := f.files.lookup place

theorem bind_eq_ok {α β : Type} {x : Except Refusal α} {next : α → Except Refusal β} {b : β}
    (h : (x >>= next) = .ok b) : ∃ a, x = .ok a ∧ next a = .ok b := by
  cases x with
  | error e => cases h
  | ok a => exact ⟨a, rfl, h⟩

/-! ## Putting -/

theorem isFile_iff (f : Files) (place : List String) :
    f.isFile place = true ↔ (f.content? place).isSome = true := by
  simp only [isFile, content?, List.any_eq_true, List.lookup_isSome_iff, beq_iff_eq,
    decide_eq_true_eq, eq_comm (a := place)]

theorem content?_put (f : Files) (place : List String) (content : List UInt8)
    (other : List String) :
    (f.put place content).content? other
      = if other = place then some content else f.content? other := by
  unfold put
  split
  · next h =>
      obtain ⟨old, hold⟩ := Option.isSome_iff_exists.mp ((f.isFile_iff place).mp h)
      rw [content?] at hold
      rw [content?, lookup_replace, hold]
      rfl
  · next h =>
      rw [isFile_iff, Option.not_isSome_iff_eq_none, content?] at h
      rw [content?, List.lookup_append, lookup_cons_ite, List.lookup_nil]
      by_cases hother : other = place
      · rw [if_pos hother, if_pos hother, hother, h]
        rfl
      · rw [if_neg hother, if_neg hother, Option.or_none]
        rfl

/-! ## Going -/

theorem enter_eq_ok {f f' : Files} {place place' : List String} {step : Step}
    (h : f.enter place step = .ok (place', f')) (hup : step ≠ .up) :
    f'.files = f.files ∧ place' = place ++ names [step] := by
  unfold enter at h
  cases step with
  | here =>
      cases h
      exact ⟨rfl, (List.append_nil _).symm⟩
  | up => exact absurd rfl hup
  | name s =>
      dsimp only at h
      split at h
      · cases h
      · split at h <;> cases h <;> exact ⟨rfl, rfl⟩

theorem enterAll_eq_ok {steps : List Step} {f f' : Files} {place place' : List String}
    (h : f.enterAll place steps = .ok (place', f')) (hup : .up ∉ steps) :
    f'.files = f.files ∧ place' = place ++ names steps := by
  induction steps generalizing f place with
  | nil =>
      cases h
      exact ⟨rfl, (List.append_nil _).symm⟩
  | cons step steps ih =>
      rw [List.mem_cons, not_or] at hup
      obtain ⟨⟨middle, g⟩, hstep, hrest⟩ := bind_eq_ok h
      obtain ⟨hfiles, hmiddle⟩ := enter_eq_ok hstep (Ne.symm hup.1)
      obtain ⟨hfiles', hplace⟩ := ih hrest hup.2
      refine ⟨hfiles'.trans hfiles, ?_⟩
      rw [hplace, hmiddle, List.append_assoc, names, names, ← List.filterMap_append]
      rfl

/-! ## Writing -/

/-- A path that is written along ends in the name of the file, at the end of its way. -/
theorem write_eq_ok {f f' : Files} {path : String} {content : List UInt8}
    (hdown : Downward path) (h : f.write path content = .ok f') :
    ∃ g : Files, g.files = f.files ∧ f' = g.put (way path) content := by
  have hup := Location.up_not_mem_steps hdown
  unfold write at h
  dsimp only at h
  split at h
  · cases h
  · split at h
    · next s hlast =>
        have hsteps := List.dropLast_append_getLast? _ hlast
        obtain ⟨⟨place, g⟩, henter, hput⟩ := bind_eq_ok h
        obtain ⟨hfiles, hplace⟩ :=
          enterAll_eq_ok henter fun hmem => hup (List.dropLast_subset _ hmem)
        have hway : place ++ [s] = way path := by
          rw [← Location.names_ofPath hdown, ← hsteps, names, List.filterMap_append, ← names,
            hplace]
          rfl
        dsimp only at hput
        split at hput
        · cases hput
        · rw [hway] at hput
          cases hput
          exact ⟨g, hfiles, rfl⟩
    · cases h

theorem content?_write {f f' : Files} {path : String} {content : List UInt8}
    (hdown : Downward path) (h : f.write path content = .ok f') (other : List String) :
    f'.content? other = if other = way path then some content else f.content? other := by
  obtain ⟨g, hfiles, rfl⟩ := write_eq_ok hdown h
  rw [content?_put, content?, hfiles]
  rfl

end Files

end ModelExport
