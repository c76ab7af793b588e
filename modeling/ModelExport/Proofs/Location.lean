import Mathlib.Data.List.Basic
import ModelExport.Location

/-!
# Ways

The way of a path is what is left of it when every part that stays where it is
and every empty part, which a separator too many leaves, is taken out. Relative
paths with one way lead to one place. A location keeps one thing more, whether a
relative path starts by staying, and so paths with one way can have two
locations (`Location.ofPath_eq_iff`).
-/

namespace ModelExport

namespace Location

/-- Whether a part of a path leads away from where it starts. -/
def leads (part : List Char) : Bool := part ≠ [] ∧ part ≠ ['.']

/-- The parts of the path that lead somewhere. -/
def way (path : String) : List String := ((cutAt '/' path.toList).filter leads).map String.ofList

def isAbsolute (path : String) : Bool := path.toList.head? = some '/'

/-- The path starts by staying where it is. -/
def startsHere (path : String) : Bool := (cutAt '/' path.toList).head? = some ['.']

/-- A relative path without a step up. -/
structure Downward (path : String) : Prop where
  relative : isAbsolute path = false
  up_not_mem : ".." ∉ way path

/-! ## Steps -/

/-- The step that a part of a way stands for. -/
def Step.ofName (name : String) : Step := if name = ".." then .up else .name name

theorem Step.ofName_injective : Function.Injective Step.ofName := by
  intro a b h
  unfold ofName at h
  split at h <;> split at h <;> simp_all

theorem Step.ofName_ne_here (name : String) : Step.ofName name ≠ .here := by
  unfold ofName
  split <;> nofun

theorem Step.ofPart?_of_leads {part : List Char} (h : leads part = true) :
    Step.ofPart? part = some (.ofName (String.ofList part)) := by
  obtain ⟨hnil, hhere⟩ := of_decide_eq_true h
  have hup : String.ofList part = String.ofList ['.', '.'] ↔ part = ['.', '.'] := String.ofList_inj
  simp only [ofPart?, ofName, if_neg hnil, if_neg hhere, hup, apply_ite some]

theorem Step.ofPart?_of_not_leads {part : List Char} (h : ¬ leads part = true) :
    Step.ofPart? part = none := by
  rw [leads, decide_eq_true_eq, not_and, not_not] at h
  unfold ofPart?
  split
  · rfl
  · next hnil => rw [if_pos (h hnil)]

theorem filterMap_ofPart? (parts : List (List Char)) :
    parts.filterMap Step.ofPart?
      = ((parts.filter leads).map String.ofList).map Step.ofName := by
  induction parts with
  | nil => rfl
  | cons part parts ih =>
      by_cases h : leads part = true
      · rw [List.filterMap_cons_some (Step.ofPart?_of_leads h), List.filter_cons_of_pos h, ih]
        rfl
      · rw [List.filterMap_cons_none (Step.ofPart?_of_not_leads h), List.filter_cons_of_neg h, ih]

/-- In front of a leading separator stands an empty part. -/
theorem startsHere_of_isAbsolute {path : String} (h : isAbsolute path = true) :
    startsHere path = false := by
  obtain ⟨rest, hrest⟩ : ∃ rest, path.toList = '/' :: rest :=
    List.head?_eq_some_iff.mp (of_decide_eq_true h)
  rw [startsHere, hrest]
  rfl

theorem ofPath_eq (path : String) :
    ofPath path =
      { absolute := isAbsolute path
        steps := (if startsHere path then [.here] else []) ++ (way path).map Step.ofName } := by
  rw [ofPath, way, ← filterMap_ofPart?]
  by_cases habsolute : isAbsolute path = true
  · have hstart := startsHere_of_isAbsolute habsolute
    simp only [habsolute, hstart, if_pos (of_decide_eq_true habsolute)]
    rfl
  · have hhead : ¬ path.toList.head? = some '/' := mt decide_eq_true habsolute
    rw [Bool.not_eq_true] at habsolute
    simp only [habsolute, if_neg hhead]
    by_cases hstart : startsHere path = true
    · simp only [hstart, if_pos (of_decide_eq_true hstart)]
      rfl
    · rw [if_neg (mt decide_eq_true hstart), if_neg hstart]
      rfl

/-- Two paths have one location when they lead the same way from the same start, and both or
neither of them say that they start there. -/
theorem ofPath_eq_iff {p q : String} :
    ofPath p = ofPath q
      ↔ isAbsolute p = isAbsolute q ∧ startsHere p = startsHere q ∧ way p = way q := by
  have hway : (way p).map Step.ofName = (way q).map Step.ofName ↔ way p = way q :=
    (List.map_injective_iff.mpr Step.ofName_injective).eq_iff
  have hhere : ∀ path rest, (way path).map Step.ofName ≠ .here :: rest := by
    intro path rest h
    obtain ⟨name, _, -, hname, -⟩ := List.map_eq_cons_iff.mp h
    exact Step.ofName_ne_here name hname
  rw [ofPath_eq, ofPath_eq, mk.injEq]
  refine and_congr_right fun _ => ?_
  cases startsHere p <;> cases startsHere q
  · simpa using hway
  · simpa using hhere p _
  · simpa using (hhere q _).symm
  · simpa using hway

/-! ## Names -/

/-- The name that a step leads to. -/
def Step.name? : Step → Option String
  | .name s => some s
  | _ => none

/-- The names among the steps. -/
def names (steps : List Step) : List String := steps.filterMap Step.name?

theorem steps_of_downward {path : String} (h : Downward path) :
    (ofPath path).steps = (if startsHere path then [.here] else []) ++ (way path).map .name := by
  have hname : ∀ name ∈ way path, Step.ofName name = .name name := by
    intro name hmem
    have hup : name ≠ ".." := fun heq => h.up_not_mem (heq ▸ hmem)
    exact if_neg hup
  rw [ofPath_eq, List.map_congr_left hname]

theorem names_ofPath {path : String} (h : Downward path) :
    names (ofPath path).steps = way path := by
  have hway : ((way path).map Step.name).filterMap Step.name? = way path := by
    rw [List.filterMap_map]
    exact List.filterMap_some
  rw [steps_of_downward h, names, List.filterMap_append, hway]
  cases startsHere path <;> rfl

theorem up_not_mem_steps {path : String} (h : Downward path) : .up ∉ (ofPath path).steps := by
  rw [steps_of_downward h]
  cases startsHere path <;> simp

end Location

end ModelExport
