import Mathlib.Data.List.Basic
import ModelExport.Proofs.Json.Tree

/-!
# Texts that are cut off

Once a bracket is open, the reader comes to the end of the value only by
the bracket that closes it, and behind that it takes nothing but blanks
(`Scan.Enclosed`). The text of an array or an object ends with its
bracket. So no part of such a text from the front is a text
(`Json.parse?_cut`): a number, a word or a list of fields may look complete
where it is cut, but the containers around it are still open.
-/

namespace ModelExport

namespace Json

/-- The value has ended. -/
def Phase.isDone : Phase → Bool
  | .done _ => true
  | _ => false

namespace Scan

variable {s s' : Scan} {frames : List Frame} {c : Char} {j : Json}

/-- Outside of all containers the value has ended. -/
def Enclosed (s : Scan) : Prop := s.frames = [] → s.phase.isDone = true

theorem enclosed_of_ne_nil (h : s.frames ≠ []) : s.Enclosed := fun hnil => absurd hnil h

theorem Enclosed.ne_nil (h : s.Enclosed) (hphase : s.phase.isDone = false) : s.frames ≠ [] := by
  intro hnil
  cases hphase.symm.trans (h hnil)

theorem enclosed_close (h : close frames j = some s) : s.Enclosed := by
  unfold close at h
  split at h <;> cases h
  · exact fun _ => rfl
  · exact enclosed_of_ne_nil (List.cons_ne_nil _ _)
  · exact enclosed_of_ne_nil (List.cons_ne_nil _ _)

theorem enclosed_closeFrame (h : closeFrame frames c = some s) : s.Enclosed := by
  unfold closeFrame at h
  split at h
  · split at h
    · exact enclosed_close h
    · cases h
  · split at h
    · exact enclosed_close h
    · cases h
  · cases h

theorem ne_nil_of_open? (h : open? frames c = some s) (hframes : frames ≠ []) : s.frames ≠ [] := by
  unfold open? at h
  split at h
  · cases h
    exact hframes
  split at h
  · cases h
    exact List.cons_ne_nil _ _
  split at h
  · cases h
    exact List.cons_ne_nil _ _
  split at h
  · cases h
    exact hframes
  split at h
  · cases h
    exact hframes
  split at h
  · cases h
    exact hframes
  · obtain ⟨n, -, rfl⟩ := Option.map_eq_some_iff.mp h
    exact hframes

theorem ne_nil_of_comma (h : comma frames = some s) : s.frames ≠ [] := by
  unfold comma at h
  split at h <;> cases h <;> exact List.cons_ne_nil _ _

theorem enclosed_stepBetween {phase : Phase} (henclosed : Enclosed ⟨phase, frames⟩)
    (h : stepBetween phase frames c = some s) : s.Enclosed := by
  unfold stepBetween at h
  split at h
  · cases h
    exact henclosed
  split at h
  · have hframes := henclosed.ne_nil rfl
    split at h
    · exact enclosed_closeFrame h
    · exact enclosed_of_ne_nil (ne_nil_of_open? h hframes)
  · have hframes := henclosed.ne_nil rfl
    split at h
    · cases h
      exact enclosed_of_ne_nil hframes
    split at h
    · exact enclosed_closeFrame h
    · cases h
  · have hframes := henclosed.ne_nil rfl
    split at h <;> cases h
    exact enclosed_of_ne_nil hframes
  · split at h
    · exact enclosed_of_ne_nil (ne_nil_of_comma h)
    · exact enclosed_closeFrame h
  · cases h

theorem enclosed_closeText {isKey : Bool} {t : Text} (h : closeText frames isKey t = some s) :
    s.Enclosed := by
  unfold closeText at h
  split at h
  · split at h <;> cases h
    exact enclosed_of_ne_nil (List.cons_ne_nil _ _)
  · exact enclosed_close h

theorem Enclosed.step (henclosed : s.Enclosed) (h : s.step c = some s') : s'.Enclosed := by
  obtain ⟨phase, frames⟩ := s
  cases phase with
  | text isKey t =>
      have hframes := henclosed.ne_nil rfl
      simp only [Scan.step] at h
      split at h
      · exact enclosed_closeText h
      · obtain ⟨t, -, rfl⟩ := Option.map_eq_some_iff.mp h
        exact enclosed_of_ne_nil hframes
  | word rest j =>
      have hframes := henclosed.ne_nil rfl
      simp only [Scan.step] at h
      split at h
      · cases h
      · split at h
        · exact enclosed_close h
        · cases h
      · split at h <;> cases h
        exact enclosed_of_ne_nil hframes
  | number n =>
      have hframes := henclosed.ne_nil rfl
      simp only [Scan.step] at h
      split at h
      · cases h
        exact enclosed_of_ne_nil hframes
      · -- The number has ended, and the character is read as one behind it.
        simp only [Option.bind_eq_bind, Option.bind_eq_some_iff] at h
        obtain ⟨numeral, -, between, hclose, hstep⟩ := h
        exact enclosed_stepBetween (enclosed_close hclose) hstep
  | _ => exact enclosed_stepBetween henclosed h

theorem Enclosed.run {cs : List Char} (henclosed : s.Enclosed)
    (h : cs.foldlM Scan.step s = some s') : s'.Enclosed := by
  induction cs generalizing s with
  | nil =>
      cases h
      exact henclosed
  | cons c cs ih =>
      obtain ⟨middle, hmiddle, hrest⟩ := Option.bind_eq_some_iff.mp h
      exact ih (henclosed.step hmiddle) hrest

/-- Behind the value the reader takes blanks alone. -/
theorem isBlank_of_run_done {cs : List Char} (h : cs.foldlM Scan.step ⟨.done j, frames⟩ = some s) :
    ∀ c ∈ cs, isBlank c = true := by
  induction cs with
  | nil => exact List.forall_mem_nil _
  | cons c cs ih =>
      obtain ⟨middle, hmiddle, hrest⟩ := Option.bind_eq_some_iff.mp h
      change stepBetween (.done j) frames c = some middle at hmiddle
      unfold stepBetween at hmiddle
      split at hmiddle <;> cases hmiddle
      next hblank =>
      exact List.forall_mem_cons.mpr ⟨hblank, ih hrest⟩

/-- Where the whole text goes on behind a cut with more than blanks, the text
does not end at the cut. -/
theorem Enclosed.readFrom_cut (henclosed : s.Enclosed) {front more : List Char}
    (h : s.readFrom (front ++ more) = some j) (hmore : ∃ c ∈ more, isBlank c = false) :
    s.readFrom front = none := by
  cases hrun : front.foldlM Scan.step s with
  | none => rw [readFrom, hrun, Option.bind_none]
  | some s' =>
      rw [readFrom, List.foldlM_append, hrun] at h
      obtain ⟨s'', hrest, -⟩ := Option.bind_eq_some_iff.mp h
      rw [readFrom, hrun, Option.bind_some]
      obtain ⟨phase, frames⟩ := s'
      unfold finish?
      split
      · next hframes hphase =>
          obtain ⟨c, hc, hblank⟩ := hmore
          change phase = _ at hphase
          subst hphase
          rw [isBlank_of_run_done hrest c hc] at hblank
          cases hblank
      · next hframes hphase =>
          have hdone := henclosed.run hrun hframes
          rw [hphase] at hdone
          cases hdone
      · rfl

end Scan

/-! ## Printed containers -/

section

variable {style : Style}

mutual

theorem write_append : ∀ (j : Json) (level : Nat) (after more : List Char),
    write style level j (after ++ more) = write style level j after ++ more
  | .null, _, _, _ | .bool true, _, _, _ | .bool false, _, _, _ | .num _, _, _, _
  | .str _, _, _, _ | .arr [], _, _, _ | .obj [], _, _, _ => by
      simp [write]
  | .arr (j :: rest), level, after, more => by
      have hclose : style.gap level ++ ']' :: (after ++ more)
          = style.gap level ++ ']' :: after ++ more := by simp
      rw [write, write, hclose, writeItems_append rest, write_append j]
      simp only [List.append_assoc, List.cons_append]
  | .obj ((key, j) :: rest), level, after, more => by
      have hclose : style.gap level ++ '\x7d' :: (after ++ more)
          = style.gap level ++ '\x7d' :: after ++ more := by simp
      rw [write, write, hclose, writeFields_append rest, write_append j]
      simp only [List.append_assoc, List.cons_append]

theorem writeItems_append : ∀ (rest : List Json) (level : Nat) (after more : List Char),
    writeItems style level rest (after ++ more) = writeItems style level rest after ++ more
  | [], _, _, _ => rfl
  | j :: rest, level, after, more => by
      rw [writeItems, writeItems, writeItems_append rest, write_append j]
      simp only [List.append_assoc, List.cons_append]

theorem writeFields_append : ∀ (rest : List (Text × Json)) (level : Nat) (after more : List Char),
    writeFields style level rest (after ++ more) = writeFields style level rest after ++ more
  | [], _, _, _ => rfl
  | (key, j) :: rest, level, after, more => by
      rw [writeFields, writeFields, writeFields_append rest, write_append j]
      simp only [List.append_assoc, List.cons_append]

end

/-- The text of an array or an object opens a container and ends with its bracket. -/
theorem exists_write_eq {j : Json} (h : 0 < j.depth) (style : Style) (level : Nat) :
    ∃ first body last s, write style level j [] = first :: (body ++ [last])
      ∧ Scan.step {} first = some s ∧ s.frames ≠ [] ∧ Scan.isBlank last = false := by
  cases j with
  | null | bool _ | num _ | str _ => exact absurd h (Nat.lt_irrefl 0)
  | arr items =>
      cases items with
      | nil => exact ⟨'[', [], ']', _, rfl, rfl, List.cons_ne_nil _ _, rfl⟩
      | cons j rest =>
          refine ⟨'[', style.gap (level + 1) ++ write style (level + 1) j
            (writeItems style (level + 1) rest (style.gap level)), ']', _, ?_, rfl,
            List.cons_ne_nil _ _, rfl⟩
          rw [write, writeItems_append, write_append, List.append_assoc]
  | obj fields =>
      cases fields with
      | nil => exact ⟨'\x7b', [], '\x7d', _, rfl, rfl, List.cons_ne_nil _ _, rfl⟩
      | cons field rest =>
          obtain ⟨key, j⟩ := field
          refine ⟨'\x7b', style.gap (level + 1) ++ (textChars key ++ (style.colon
            ++ write style (level + 1) j (writeFields style (level + 1) rest (style.gap level)))),
            '\x7d', _, ?_, rfl, List.cons_ne_nil _ _, rfl⟩
          rw [write, writeFields_append, write_append]
          simp only [List.append_assoc]

end

/-- A text that opens a container and ends with more than a blank cannot be cut. -/
theorem ofChars?_cut {first last : Char} {body front more : List Char} {s : Scan} {j : Json}
    (hfirst : Scan.step {} first = some s) (hframes : s.frames ≠ [])
    (hlast : Scan.isBlank last = false) (hcut : front ++ more = first :: (body ++ [last]))
    (hmore : more ≠ []) (hwhole : ofChars? (front ++ more) = some j) : ofChars? front = none := by
  cases front with
  | nil => rfl
  | cons c front =>
      rw [List.cons_append] at hcut
      obtain ⟨rfl, hrest⟩ := List.cons.inj hcut
      have hmem : last ∈ more := by
        have hends := congrArg List.getLast? hrest
        rw [List.getLast?_append_of_ne_nil _ hmore, List.getLast?_concat] at hends
        exact List.mem_of_getLast? hends
      change Scan.readFrom {} (c :: (front ++ more)) = some j at hwhole
      change Scan.readFrom {} (c :: front) = none
      rw [Scan.readFrom_of_step hfirst] at hwhole ⊢
      exact (Scan.enclosed_of_ne_nil hframes).readFrom_cut hwhole ⟨last, hmem, hlast⟩

/-- The text of an array or an object is not a text any more where it is cut. -/
theorem parse?_cut {j : Json} (h : 0 < j.depth) {cut : String}
    (hcut : cut.toList <+: j.pretty.toList) (hne : cut ≠ j.pretty) : parse? cut = none := by
  obtain ⟨first, body, last, s, hwrite, hfirst, hframes, hlast⟩ := exists_write_eq h .pretty 0
  have hchars : j.pretty.toList = first :: (body ++ [last]) := by
    rw [pretty, String.toList_ofList, hwrite]
  obtain ⟨more, hmore⟩ := hcut
  have hne' : more ≠ [] := by
    rintro rfl
    rw [List.append_nil] at hmore
    exact hne (String.toList_inj.mp hmore)
  have hwhole : ofChars? (cut.toList ++ more) = some j := by
    rw [hmore]
    exact parse?_pretty j
  exact ofChars?_cut hfirst hframes hlast (hmore.trans hchars) hne' hwhole

end Json

end ModelExport
