import Mathlib.Data.Finset.Card
import Mathlib.Data.Finset.Insert
import Mathlib.Data.Nat.Find
import Mathlib.Order.Bounds.Basic
import ModelExport.Proofs.Names.Pool

/-!
# A pool answers like a plain set

A sequence of calls is run twice: on a pool with its hints
(`PoolCall.run`) and on a bare set of names that remembers nothing else
(`PoolCall.runPlain`). The two give the same answers and hold the same
names. `FreshFor` says what a fresh name is in terms of the set alone.
-/

namespace ModelExport

open NamePool (suffixed le_length_of_numbered)

/-! ## Bare sets of names -/

namespace PlainNames

variable {s : Finset String} {stem : String}

theorem exists_free (s : Finset String) (stem : String) : ∃ k, 1 ≤ k ∧ suffixed stem k ∉ s := by
  by_contra hnone
  have hall : ∀ k, 1 ≤ k → k < 1 + (s.card + 1) → suffixed stem k ∈ s.toList := by
    intro k hk _
    by_contra hfree
    exact hnone ⟨k, hk, fun hmem => hfree (Finset.mem_toList.mpr hmem)⟩
  have := le_length_of_numbered hall
  rw [Finset.length_toList] at this
  omega

/-- The least positive number that makes a free name of the stem. -/
def leastFree (s : Finset String) (stem : String) : Nat := Nat.find (exists_free s stem)

theorem leastFree_isLeast (s : Finset String) (stem : String) :
    IsLeast {k | 1 ≤ k ∧ suffixed stem k ∉ s} (leastFree s stem) :=
  ⟨Nat.find_spec (exists_free s stem), fun _ hk => Nat.find_min' (exists_free s stem) hk⟩

/-- The stem and the numbers below the least free one are different names of the set. -/
theorem leastFree_le_card (h : stem ∈ s) : leastFree s stem ≤ s.card := by
  obtain ⟨⟨hpos, -⟩, hleast⟩ := leastFree_isLeast s stem
  have hall : ∀ k, 1 ≤ k → k < 1 + (leastFree s stem - 1) →
      suffixed stem k ∈ (s.erase stem).toList := by
    intro k hk hlt
    have hmem : suffixed stem k ∈ s := by
      by_contra hfree
      have := hleast ⟨hk, hfree⟩
      omega
    exact Finset.mem_toList.mpr
      (Finset.mem_erase.mpr ⟨NamePool.suffixed_ne_stem stem k, hmem⟩)
  have hlen := le_length_of_numbered hall
  rw [Finset.length_toList, Finset.card_erase_of_mem h] at hlen
  have := Finset.card_pos.mpr ⟨stem, h⟩
  omega

/-- The stem when it is free, else its least free number. -/
def fresh (s : Finset String) (stem : String) : String :=
  if stem ∈ s then suffixed stem (leastFree s stem) else stem

end PlainNames

/-- The name is a fresh one for the stem: the stem itself when it is
free, else the stem with the least number that is free. That number does
not exceed the number of names. -/
structure FreshFor (s : Finset String) (stem name : String) : Prop where
  free : name ∉ s
  eq_stem : stem ∉ s → name = stem
  least_number : stem ∈ s → ∃ k, name = stem ++ decimal k
    ∧ IsLeast {k | 1 ≤ k ∧ stem ++ decimal k ∉ s} k ∧ k ≤ s.card

theorem PlainNames.fresh_freshFor (s : Finset String) (stem : String) :
    FreshFor s stem (PlainNames.fresh s stem) := by
  unfold PlainNames.fresh
  split
  · next h =>
      have hleast := PlainNames.leastFree_isLeast s stem
      exact ⟨hleast.1.2, fun hfree => absurd h hfree,
        fun _ => ⟨_, rfl, hleast, PlainNames.leastFree_le_card h⟩⟩
  · next h => exact ⟨h, fun _ => rfl, fun hmem => absurd hmem h⟩

/-! ## The pool finds the name that the set has -/

namespace NamePool

variable {p : NamePool}

theorem Sound.found_isLeast (hp : p.Sound) (stem : String) :
    IsLeast {k | 1 ≤ k ∧ suffixed stem k ∉ p.names.toFinset} (p.found stem) := by
  refine ⟨⟨?_, ?_⟩, ?_⟩
  · exact Nat.le_trans (hp.hint_pos stem) (le_firstFree _ _ _ _)
  · rw [List.mem_toFinset]
    exact firstFree_not_mem (Nat.le_refl _) _
  · rintro k ⟨hk, hfree⟩
    by_contra hlt
    rw [List.mem_toFinset] at hfree
    rcases Nat.lt_or_ge k (p.hint stem) with hbelow | habove
    · exact hfree (hp.taken_below_hint stem k hk hbelow)
    · exact hfree (mem_of_lt_firstFree habove (Nat.lt_of_not_le hlt))

theorem Sound.pick_eq_fresh (hp : p.Sound) (stem : String) :
    p.pick stem = PlainNames.fresh p.names.toFinset stem := by
  by_cases h : stem ∈ p.names
  · have hfound : p.found stem = PlainNames.leastFree p.names.toFinset stem :=
      (hp.found_isLeast stem).unique (PlainNames.leastFree_isLeast _ stem)
    rw [pick, if_pos ((contains_iff p stem).mpr h), PlainNames.fresh,
      if_pos (List.mem_toFinset.mpr h), hfound]
  · rw [pick, if_neg fun hc => h ((contains_iff p stem).mp hc), PlainNames.fresh,
      if_neg fun hm => h (List.mem_toFinset.mp hm)]

theorem Sound.size_eq_card (hp : p.Sound) : p.size = p.names.toFinset.card :=
  (List.toFinset_card_of_nodup hp.nodup).symm

end NamePool

/-! ## Calls -/

/-- One operation on a pool, with its argument. -/
inductive PoolCall where
  | allocate (stem : String)
  | reserve (name : String)
  | contains (name : String)
  | size
  | isEmpty

/-- What an operation on a pool answers. -/
inductive PoolAnswer where
  | name (name : String)
  | flag (b : Bool)
  | count (n : Nat)
  deriving DecidableEq

namespace PoolCall

def step : PoolCall → NamePool → Except ArgumentError PoolAnswer × NamePool
  | .allocate stem, p =>
      match p.allocate stem with
      | .ok (name, p) => (.ok (.name name), p)
      | .error e => (.error e, p)
  | .reserve name, p => (.ok (.flag (p.reserve name).1), (p.reserve name).2)
  | .contains name, p => (.ok (.flag (p.contains name)), p)
  | .size, p => (.ok (.count p.size), p)
  | .isEmpty, p => (.ok (.flag p.isEmpty), p)

/-- The same operation on a bare set of names. -/
def plainStep : PoolCall → Finset String → Except ArgumentError PoolAnswer × Finset String
  | .allocate stem, s =>
      if stem = "" then (.error .emptyStem, s)
      else (.ok (.name (PlainNames.fresh s stem)), insert (PlainNames.fresh s stem) s)
  | .reserve name, s => (.ok (.flag (name ∉ s)), insert name s)
  | .contains name, s => (.ok (.flag (name ∈ s)), s)
  | .size, s => (.ok (.count s.card), s)
  | .isEmpty, s => (.ok (.flag (s = ∅)), s)

/-- What the calls answer, one after the other, and the pool after the last. -/
def run : List PoolCall → NamePool → List (Except ArgumentError PoolAnswer) × NamePool
  | [], p => ([], p)
  | call :: calls, p =>
      let (answer, p) := call.step p
      let (answers, p) := run calls p
      (answer :: answers, p)

/-- The same calls on a bare set of names. -/
def runPlain :
    List PoolCall → Finset String → List (Except ArgumentError PoolAnswer) × Finset String
  | [], s => ([], s)
  | call :: calls, s =>
      let (answer, s) := call.plainStep s
      let (answers, s) := runPlain calls s
      (answer :: answers, s)

/-! ## The simulation -/

/-- The pool holds exactly the names of the set, and its hints can be trusted. -/
structure Holds (p : NamePool) (s : Finset String) : Prop where
  sound : p.Sound
  names : p.names.toFinset = s

theorem Holds.mem {p : NamePool} {s : Finset String} (h : Holds p s) (name : String) :
    name ∈ p.names ↔ name ∈ s := by
  rw [← h.names, List.mem_toFinset]

theorem holds_empty : Holds {} ∅ := ⟨NamePool.sound_empty, rfl⟩

theorem step_holds {p : NamePool} {s : Finset String} (h : Holds p s) (call : PoolCall) :
    (call.step p).1 = (call.plainStep s).1 ∧ Holds (call.step p).2 (call.plainStep s).2 := by
  obtain ⟨hp, rfl⟩ := h
  cases call with
  | allocate stem =>
      by_cases hempty : stem = ""
      · subst hempty
        exact ⟨rfl, hp, rfl⟩
      · simp only [step, plainStep, NamePool.allocate_eq p hempty, if_neg hempty,
          ← hp.pick_eq_fresh stem]
        exact ⟨trivial, hp.taking stem, List.toFinset_cons⟩
  | reserve name =>
      refine ⟨?_, hp.reserve name, ?_⟩
      · simp only [step, plainStep, NamePool.reserve]
        split <;> simp_all [NamePool.contains]
      · ext n
        simp [step, plainStep, NamePool.mem_names_reserve]
  | contains name =>
      have hmem : p.contains name = decide (name ∈ p.names.toFinset) := by
        rw [Bool.eq_iff_iff, NamePool.contains_iff, decide_eq_true_iff, List.mem_toFinset]
      exact ⟨by simp only [step, plainStep, hmem], hp, rfl⟩
  | size => exact ⟨by simp [step, plainStep, hp.size_eq_card], hp, rfl⟩
  | isEmpty =>
      have hempty : p.isEmpty = decide (p.names.toFinset = ∅) := by
        rw [Bool.eq_iff_iff, NamePool.isEmpty, List.isEmpty_iff, decide_eq_true_iff,
          List.toFinset_eq_empty_iff]
      exact ⟨by simp [step, plainStep, hempty], hp, rfl⟩

theorem run_holds {p : NamePool} {s : Finset String} (h : Holds p s) (calls : List PoolCall) :
    (run calls p).1 = (runPlain calls s).1 ∧ Holds (run calls p).2 (runPlain calls s).2 := by
  induction calls generalizing p s with
  | nil => exact ⟨rfl, h⟩
  | cons call calls ih =>
      obtain ⟨hanswer, hnext⟩ := step_holds h call
      obtain ⟨hanswers, hlast⟩ := ih hnext
      exact ⟨congrArg₂ List.cons hanswer hanswers, hlast⟩

/-! ## The headline theorem -/

/-- Calls on a new pool are answered as by a bare set of names, which
holds the same names afterwards. The next fresh name is the one that
`FreshFor` describes on that set, it is all that comes to the set, and an
empty stem is refused without effect. -/
theorem answers_eq_plain (calls : List PoolCall) :
    let p := (run calls {}).2
    let s := (runPlain calls ∅).2
    (run calls {}).1 = (runPlain calls ∅).1
      ∧ (∀ name, name ∈ p.names ↔ name ∈ s) ∧ p.size = s.card
      ∧ (PoolCall.allocate "").step p = (.error .emptyStem, p)
      ∧ ∀ stem, stem ≠ "" → ∃ name q, p.allocate stem = .ok (name, q)
          ∧ FreshFor s stem name ∧ ∀ n, n ∈ q.names ↔ n = name ∨ n ∈ s := by
  intro p s
  obtain ⟨hanswers, hlast⟩ := run_holds holds_empty calls
  have hsize : p.size = s.card := by
    rw [hlast.sound.size_eq_card, hlast.names]
  refine ⟨hanswers, hlast.mem, hsize, rfl, ?_⟩
  intro stem hstem
  refine ⟨p.pick stem, p.taking stem, NamePool.allocate_eq p hstem, ?_, ?_⟩
  · rw [hlast.sound.pick_eq_fresh stem, hlast.names]
    exact PlainNames.fresh_freshFor s stem
  · intro n
    rw [NamePool.names_taking, List.mem_cons, hlast.mem n]

-- A stem that ends in digits runs into the numbers of a shorter one, and into a reserved name.
example :
    (run [.reserve "x12", .allocate "x1", .allocate "x1", .allocate "x", .allocate "x",
        .allocate "x1"] {}).1
      = [.ok (.flag true), .ok (.name "x1"), .ok (.name "x11"), .ok (.name "x"), .ok (.name "x2"),
         .ok (.name "x13")] := by
  decide +kernel

end PoolCall

end ModelExport
