import Mathlib.Logic.Function.Iterate
import ModelExport.Proofs.Pipeline.Walk

/-!
# The walk step by step

`Pipeline.walk` is a recursion over the stages. Here the same walk with a
cursor that counts down: at each step it looks at one stage, and either
passes it and moves on to the position before it, or stops there for good.
It stops after no more steps than there are stages, and then it stands
where the walk stops and has passed the stages of its plan
(`Cursor.iterate_step_walk`).

What the plan is is said by `Pipeline.walk_covers_longest_suffix`: its
stages are the longest end of the pipeline that can be exported as a whole,
and everything else in it follows from the one stage in front of them.
-/

namespace ModelExport

/-! ## The cursor -/

/-- Where the cursor of a walk stands. -/
inductive Position where
  /-- At a stage that it has still to look at. -/
  | stage (index : Nat)
  | source
  | unexportable (index : Nat)
  deriving DecidableEq

/-- The position that is left when so many stages have still to be looked at. -/
def Position.behind : Nat → Position
  | 0 => .source
  | count + 1 => .stage count

/-- Where the walk stopped, as a position. -/
def Stop.position : Stop → Position
  | .source => .source
  | .unexportable index _ => .unexportable index

theorem Stop.position_ne_stage (s : Stop) (index : Nat) : s.position ≠ .stage index := by
  cases s <;> simp [position]

/-- A cursor with the stages that it has passed, oldest first. -/
structure Cursor where
  position : Position
  passed : List Stage := []

namespace Cursor

/-- Looks at the stage where the cursor stands. A cursor that has stopped stays. -/
def step (stages : List Stage) (c : Cursor) : Cursor :=
  match c.position with
  | .stage index =>
      match stages[index]? with
      | some s =>
          if s.isExportable then { position := .behind index, passed := s :: c.passed }
          else { c with position := .unexportable index }
      | none => c
  | _ => c

/-- The cursor at the last stage. -/
def start (p : Pipeline) : Cursor := { position := .behind p.size }

theorem step_source (stages passed : List Stage) :
    step stages ⟨.source, passed⟩ = ⟨.source, passed⟩ := rfl

theorem step_unexportable (stages passed : List Stage) (index : Nat) :
    step stages ⟨.unexportable index, passed⟩ = ⟨.unexportable index, passed⟩ := rfl

theorem step_behind_succ {stages passed : List Stage} {count : Nat} {s : Stage}
    (hs : stages[count]? = some s) :
    step stages ⟨.behind (count + 1), passed⟩ =
      if s.isExportable then ⟨.behind count, s :: passed⟩ else ⟨.unexportable count, passed⟩ := by
  simp only [step, Position.behind, hs]

/-- Counting down over the stages that remain, the cursor comes to where the
recursion over them comes. -/
theorem iterate_step_behind (source terminal : Schema) (remaining later passed : List Stage) :
    (step (remaining.reverse ++ later))^[remaining.length] ⟨.behind remaining.length, passed⟩ =
      let plan := Pipeline.walkBack source terminal remaining passed
      ⟨plan.stop.position, plan.stages⟩ := by
  induction remaining generalizing later passed with
  | nil => rfl
  | cons s earlier ih =>
      have hlast : (earlier.reverse ++ s :: later)[earlier.length]? = some s := by
        rw [← List.length_reverse, List.getElem?_append_right (Nat.le_refl _), Nat.sub_self]
        rfl
      rw [List.reverse_cons, List.append_assoc, List.singleton_append, List.length_cons,
        Function.iterate_succ_apply, step_behind_succ hlast, Pipeline.walkBack]
      by_cases hs : s.isExportable = true
      · rw [if_pos hs, if_pos hs]
        exact ih (s :: later) (s :: passed)
      · rw [if_neg hs, if_neg hs]
        exact Function.iterate_fixed (step_unexportable _ passed _) _

/-- Within as many steps as there are stages the cursor has stopped. -/
theorem iterate_step_walk (p : Pipeline) :
    (step p.stages)^[p.size] (start p) = ⟨p.walk.stop.position, p.walk.stages⟩ := by
  have hsteps := iterate_step_behind p.source p.terminal p.stages.reverse [] []
  rw [List.append_nil, List.reverse_reverse, List.length_reverse] at hsteps
  exact hsteps

end Cursor

/-! ## The plan -/

/-- An end of the pipeline that can be exported does not reach over a stage that cannot. -/
theorem AllExportable.suffix_of_behind {up down l : List Stage} {halt : Stage}
    (hl : AllExportable l) (hhalt : halt.isExportable = false) (h : l <:+ up ++ halt :: down) :
    l <:+ down := by
  have hnot : halt ∉ l := fun hmem => by simpa [hhalt] using hl halt hmem
  rcases List.suffix_or_suffix_of_suffix h (List.suffix_append up (halt :: down)) with hle | hge
  · rcases List.suffix_cons_iff.mp hle with rfl | hle
    · exact absurd (List.mem_cons_self ..) hnot
    · exact hle
  · exact absurd (hge.subset (List.mem_cons_self ..)) hnot

namespace Pipeline

/-- The stage at the position cannot be exported, and all behind it can. -/
structure LastUnexportable (p : Pipeline) (index : Nat) (s : Stage) : Prop where
  at_index : p.stages[index]? = some s
  unexportable : s.isExportable = false
  behind : ∀ later t, index < later → p.stages[later]? = some t → t.isExportable = true

namespace LastUnexportable

variable {p : Pipeline} {i j : Nat} {s t : Stage}

theorem not_allExportable (h : p.LastUnexportable i s) : ¬ AllExportable p.stages := by
  intro hall
  have hs := hall s (List.mem_of_getElem? h.at_index)
  rw [h.unexportable] at hs
  cases hs

theorem unique (hi : p.LastUnexportable i s) (hj : p.LastUnexportable j t) : i = j ∧ s = t := by
  rcases Nat.lt_trichotomy i j with hlt | rfl | hlt
  · exact absurd (hi.behind j t hlt hj.at_index) (by rw [hj.unexportable]; decide)
  · exact ⟨rfl, Option.some.inj (hi.at_index.symm.trans hj.at_index)⟩
  · exact absurd (hj.behind i s hlt hi.at_index) (by rw [hi.unexportable]; decide)

theorem exportable_drop (h : p.LastUnexportable i s) : AllExportable (p.stages.drop (i + 1)) := by
  intro t ht
  obtain ⟨k, hk⟩ := List.mem_iff_getElem?.mp ht
  rw [List.getElem?_drop] at hk
  exact h.behind _ t (by omega) hk

theorem split (h : p.LastUnexportable i s) :
    p.stages = p.stages.take i ++ s :: p.stages.drop (i + 1) := by
  obtain ⟨hlt, hs⟩ := List.getElem?_eq_some_iff.mp h.at_index
  rw [← hs, List.getElem_cons_drop, List.take_append_drop]

/-- Where the walk stops, what it leaves behind the stage is the plan. -/
theorem walk_eq (h : p.LastUnexportable i s) :
    p.walk = { source := s.schema, stages := p.stages.drop (i + 1), terminal := p.terminal
               stop := .unexportable i s.name } := by
  obtain ⟨hlt, -⟩ := List.getElem?_eq_some_iff.mp h.at_index
  rw [walk_of_halt h.split h.unexportable h.exportable_drop, List.length_take,
    Nat.min_eq_left (Nat.le_of_lt hlt)]

end LastUnexportable

theorem allExportable_or_lastUnexportable (p : Pipeline) :
    AllExportable p.stages ∨ ∃ i s, p.LastUnexportable i s := by
  refine (exportable_or_last_unexportable p.stages).imp_right ?_
  rintro ⟨up, halt, down, hp, hhalt, hdown⟩
  refine ⟨up.length, halt, by simp [hp], hhalt, fun later t hlater ht => hdown t ?_⟩
  obtain ⟨more, rfl⟩ := Nat.exists_eq_add_of_lt hlater
  rw [hp, List.getElem?_append_right (by omega),
    show up.length + more + 1 - up.length = more + 1 by omega, List.getElem?_cons_succ] at ht
  exact List.mem_of_getElem? ht

theorem stop_walk_eq_unexportable_iff (p : Pipeline) (i : Nat) (name : String) :
    p.walk.stop = .unexportable i name ↔ ∃ s, p.LastUnexportable i s ∧ s.name = name := by
  constructor
  · intro hstop
    rcases p.allExportable_or_lastUnexportable with hall | ⟨j, s, hlast⟩
    · rw [walk_of_exportable hall] at hstop
      cases hstop
    · rw [hlast.walk_eq] at hstop
      injection hstop with hij hname
      exact ⟨s, hij ▸ hlast, hname⟩
  · rintro ⟨s, hlast, rfl⟩
    rw [hlast.walk_eq]

theorem stop_walk_eq_source_iff (p : Pipeline) :
    p.walk.stop = .source ↔ AllExportable p.stages := by
  rcases p.allExportable_or_lastUnexportable with hall | ⟨i, s, hlast⟩
  · rw [walk_of_exportable hall]
    exact iff_of_true rfl hall
  · rw [hlast.walk_eq]
    exact iff_of_false (by simp) hlast.not_allExportable

theorem terminal_walk_eq (p : Pipeline) : p.walk.terminal = p.terminal := by
  rcases p.allExportable_or_lastUnexportable with hall | ⟨i, s, hlast⟩
  · rw [walk_of_exportable hall]
  · rw [hlast.walk_eq]

/-- The stages of the plan are an end of the pipeline that can be exported, and the longest one. -/
theorem stages_walk_longest (p : Pipeline) :
    p.walk.stages <:+ p.stages ∧ AllExportable p.walk.stages
      ∧ ∀ l, l <:+ p.stages → AllExportable l → l <:+ p.walk.stages := by
  rcases p.allExportable_or_lastUnexportable with hall | ⟨i, s, hlast⟩
  · rw [walk_of_exportable hall]
    exact ⟨List.suffix_rfl, hall, fun l hl _ => hl⟩
  · rw [hlast.walk_eq]
    exact ⟨List.drop_suffix _ _, hlast.exportable_drop, fun l hl hexp =>
      hexp.suffix_of_behind hlast.unexportable (hlast.split ▸ hl)⟩

/-- The cursor stops within as many steps as there are stages, and never at a
stage. The plan that it leads to has the longest end of the pipeline that can
be exported, in the order of the pipeline, and ends with its last columns. If
all stages can be exported, it starts with the source, and otherwise behind
the last stage that cannot. -/
theorem walk_covers_longest_suffix (p : Pipeline) :
    (Cursor.step p.stages)^[p.size] (.start p) = ⟨p.walk.stop.position, p.walk.stages⟩
    ∧ (∀ index, p.walk.stop.position ≠ .stage index)
    ∧ (p.walk.stages <:+ p.stages ∧ AllExportable p.walk.stages
        ∧ ∀ l, l <:+ p.stages → AllExportable l → l <:+ p.walk.stages)
    ∧ (p.walk.stop = .source ↔ AllExportable p.stages)
    ∧ (∀ i name, p.walk.stop = .unexportable i name ↔ ∃ s, p.LastUnexportable i s ∧ s.name = name)
    ∧ p.walk.terminal = (p.stages.getLast?.map (·.schema)).getD p.source
    ∧ (AllExportable p.stages →
        p.walk.source = p.source ∧ p.walk.truncatedAt? = none ∧ p.walk.size = p.size)
    ∧ ∀ i s, p.LastUnexportable i s →
        p.walk.source = s.schema ∧ p.walk.truncatedAt? = some s.name
          ∧ p.walk.size = p.size - 1 - i := by
  refine ⟨Cursor.iterate_step_walk p, p.walk.stop.position_ne_stage, p.stages_walk_longest,
    p.stop_walk_eq_source_iff, p.stop_walk_eq_unexportable_iff, ?terminal, ?whole, ?part⟩
  case terminal =>
    rw [terminal_walk_eq, terminal]
    cases p.stages.getLast? <;> rfl
  case whole =>
    intro hall
    rw [walk_of_exportable hall]
    exact ⟨rfl, rfl, rfl⟩
  case part =>
    intro i s hlast
    rw [hlast.walk_eq]
    refine ⟨rfl, rfl, ?_⟩
    show (p.stages.drop (i + 1)).length = p.stages.length - 1 - i
    rw [List.length_drop]
    omega

end Pipeline

end ModelExport
