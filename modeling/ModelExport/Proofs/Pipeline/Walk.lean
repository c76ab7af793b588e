import Mathlib.Data.List.Basic
import ModelExport.Pipeline.Walk

/-!
# Where a walk stops

The stages of a pipeline either can all be exported, or one of them is the
last that cannot: the stages in front of it are arbitrary and those behind
it can all be exported (`exportable_or_last_unexportable`). The walk is
known in both cases. In the second its plan is that of a pipeline which
starts at the schema of the stage where it stopped (`walk_of_halt`,
`walk_of_exportable`), and the stages in front are not in it anywhere,
except that the stop counts them.
-/

namespace ModelExport

/-- All stages of the list can be exported. -/
def AllExportable (stages : List Stage) : Prop := ∀ s ∈ stages, s.isExportable = true

namespace AllExportable

theorem nil : AllExportable [] := fun _ hs => absurd hs List.not_mem_nil

theorem cons {s : Stage} {stages : List Stage} (hs : s.isExportable = true)
    (h : AllExportable stages) : AllExportable (s :: stages) := by
  intro t ht
  rcases List.mem_cons.mp ht with rfl | ht
  · exact hs
  · exact h t ht

theorem reverse {stages : List Stage} (h : AllExportable stages) : AllExportable stages.reverse :=
  fun s hs => h s (List.mem_reverse.mp hs)

theorem append {stages later : List Stage} (h : AllExportable stages)
    (hlater : AllExportable later) : AllExportable (stages ++ later) := by
  intro s hs
  rcases List.mem_append.mp hs with hs | hs
  · exact h s hs
  · exact hlater s hs

end AllExportable

theorem exportable_or_last_unexportable (stages : List Stage) :
    AllExportable stages ∨ ∃ up halt down, stages = up ++ halt :: down
      ∧ halt.isExportable = false ∧ AllExportable down := by
  induction stages with
  | nil => exact Or.inl .nil
  | cons s stages ih =>
      rcases ih with hall | ⟨up, halt, down, rfl, hhalt, hdown⟩
      · cases hs : s.isExportable with
        | true => exact Or.inl (.cons hs hall)
        | false => exact Or.inr ⟨[], s, stages, rfl, hs, hall⟩
      · exact Or.inr ⟨s :: up, halt, down, rfl, hhalt, hdown⟩

namespace Pipeline

/-! ## The end of a pipeline -/

theorem terminal_push (p : Pipeline) (s : Stage) : (p.push s).terminal = s.schema := by
  unfold terminal push
  rw [List.getLast?_concat]

/-- What is in front of a stage does not show at the end. -/
theorem terminal_of_behind (source : Schema) (up down : List Stage) (halt : Stage) :
    terminal ⟨source, up ++ halt :: down⟩ = terminal ⟨halt.schema, down⟩ := by
  unfold terminal
  rcases List.eq_nil_or_concat' down with rfl | ⟨front, last, rfl⟩
  · rw [List.getLast?_concat, List.getLast?_nil]
  · rw [← List.cons_append, ← List.append_assoc, List.getLast?_concat, List.getLast?_concat]

/-! ## The walk -/

theorem walkBack_of_exportable (source terminal : Schema) {nearer : List Stage}
    (h : AllExportable nearer) (earlier passed : List Stage) :
    walkBack source terminal (nearer ++ earlier) passed
      = walkBack source terminal earlier (nearer.reverse ++ passed) := by
  induction nearer generalizing passed with
  | nil => rfl
  | cons s nearer ih =>
      have hs : s.isExportable = true := h s (List.mem_cons_self ..)
      have hrest : AllExportable nearer := fun t ht => h t (List.mem_cons_of_mem _ ht)
      rw [List.cons_append, walkBack, if_pos hs, ih hrest, List.reverse_cons, List.append_assoc,
        List.singleton_append]

theorem walk_of_exportable {p : Pipeline} (h : AllExportable p.stages) :
    p.walk = { source := p.source, stages := p.stages, terminal := p.terminal
               stop := .source } := by
  have hwalk := walkBack_of_exportable p.source p.terminal h.reverse [] []
  rw [List.append_nil, List.append_nil, List.reverse_reverse] at hwalk
  exact hwalk

theorem walk_of_halt {p : Pipeline} {up down : List Stage} {halt : Stage}
    (hp : p.stages = up ++ halt :: down) (hhalt : halt.isExportable = false)
    (hdown : AllExportable down) :
    p.walk = { source := halt.schema, stages := down, terminal := p.terminal
               stop := .unexportable up.length halt.name } := by
  -- Reversed, the stages behind come first, then the one that stops the walk.
  have hwalk := walkBack_of_exportable p.source p.terminal hdown.reverse (halt :: up.reverse) []
  rw [List.append_nil, List.reverse_reverse, walkBack, if_neg (by rw [hhalt]; decide),
    List.length_reverse] at hwalk
  rw [walk, hp, List.reverse_append, List.reverse_cons, List.append_assoc, List.singleton_append]
  exact hwalk

/-- A walk that stops before the source stops at the last stage that cannot be exported. -/
theorem halt_of_stop {p : Pipeline} {i : Nat} {name : String}
    (h : p.walk.stop = .unexportable i name) :
    ∃ up halt down, p.stages = up ++ halt :: down ∧ up.length = i ∧ halt.name = name
      ∧ halt.isExportable = false ∧ AllExportable down := by
  rcases exportable_or_last_unexportable p.stages with hall | ⟨up, halt, down, hp, hhalt, hdown⟩
  · rw [walk_of_exportable hall] at h
    cases h
  · rw [walk_of_halt hp hhalt hdown] at h
    injection h with hi hname
    exact ⟨up, halt, down, hp, hi, hname, hhalt, hdown⟩

/-- A stage at the end that can be exported is the last of the plan, wherever the walk stops. -/
theorem walk_push (p : Pipeline) {s : Stage} (hs : s.isExportable = true) :
    (p.push s).walk = p.walk.pushTerminal s := by
  have hend : AllExportable [s] := .cons hs .nil
  rcases exportable_or_last_unexportable p.stages with hall | ⟨up, halt, down, hp, hhalt, hdown⟩
  · have hpush : AllExportable (p.push s).stages := hall.append hend
    rw [walk_of_exportable hpush, walk_of_exportable hall, terminal_push]
    rfl
  · have hpush : (p.push s).stages = up ++ halt :: (down ++ [s]) := by
      rw [push, hp, List.append_assoc, List.cons_append]
    rw [walk_of_halt hpush hhalt (hdown.append hend), walk_of_halt hp hhalt hdown, terminal_push]
    rfl

theorem stages_walk_subset (p : Pipeline) : p.walk.stages ⊆ p.stages := by
  rcases exportable_or_last_unexportable p.stages with hall | ⟨up, halt, down, hp, hhalt, hdown⟩
  · rw [walk_of_exportable hall]
    exact List.Subset.refl _
  · rw [walk_of_halt hp hhalt hdown, hp]
    exact fun s hs => List.mem_append_right _ (List.mem_cons_of_mem _ hs)

end Pipeline

end ModelExport
