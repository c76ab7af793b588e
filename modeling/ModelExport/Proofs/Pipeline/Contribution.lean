import Mathlib.Data.List.Induction
import ModelExport.Proofs.Context.Growth
import ModelExport.Proofs.Export.Script
import ModelExport.Proofs.Pipeline.Passes

/-!
# What the stages of a plan contribute

Scripted stages only add to the body of the context, so a replay that gets
through them leaves a trace: a part of the body for each stage, in their
order (`Contributes`, `Replay.stages_eq_ok`). Whatever holds behind the
inputs and is kept by each stage when it has its turn holds behind all of
them (`Plan.holds_behind`, `Plan.holds_of_turns`).
-/

namespace ModelExport

/-! ## Parts of the body -/

/-- The stages contribute one after the other, and each adds its part to
the end of the body. -/
inductive Contributes : Context → List Stage → List (List Expr) → Context → Prop where
  | nil (c : Context) : Contributes c [] [] c
  | cons {c c' c'' : Context} {stage : Stage} {emit : Build Unit} {part : List Expr}
      {stages : List Stage} {parts : List (List Expr)} (exporter : stage.exporter? = some emit)
      (emitted : emit c = .ok () c') (appended : c'.body = c.body ++ part)
      (rest : Contributes c' stages parts c'') : Contributes c (stage :: stages) (part :: parts) c''

theorem Contributes.body_eq {c c' : Context} {stages : List Stage} {parts : List (List Expr)}
    (h : Contributes c stages parts c') : c'.body = c.body ++ parts.flatten := by
  induction h with
  | nil c => exact (List.append_nil _).symm
  | cons _ _ appended _ ih => rw [ih, appended, List.flatten_cons, List.append_assoc]

theorem Replay.ofBuild_eq_ok {α : Type} {report : BuildError → ExportError} {b : Build α}
    {a : α} {c c' : Context} (h : ofBuild report b c = .ok a c') : b c = .ok a c' := by
  rw [ofBuild_apply] at h
  cases hb : b c with
  | error e c₁ =>
      rw [hb] at h
      cases h
  | ok a₁ c₁ =>
      rw [hb] at h
      cases h
      rfl

theorem Replay.stages_cons_eq_ok {stage : Stage} {rest : List Stage} {c c'' : Context}
    (h : stages (stage :: rest) c = .ok () c'') :
    ∃ emit c', stage.exporter? = some emit ∧ emit c = .ok () c' ∧ stages rest c' = .ok () c'' := by
  cases hs : stage.exporter? with
  | none =>
      rw [stages, hs] at h
      cases h
  | some emit =>
      rw [stages_cons hs] at h
      obtain ⟨_, c', hemit, hrest⟩ := bind_eq_ok h
      exact ⟨emit, c', rfl, ofBuild_eq_ok hemit, hrest⟩

theorem Replay.stages_eq_ok {rest : List Stage} (hscripted : ∀ s ∈ rest, s.Scripted)
    {c c' : Context} (h : stages rest c = .ok () c') : ∃ parts, Contributes c rest parts c' := by
  induction rest generalizing c with
  | nil =>
      obtain rfl : c = c' := by
        injection h
      exact ⟨[], .nil c⟩
  | cons stage rest ih =>
      obtain ⟨hstage, hrest⟩ := List.forall_mem_cons.mp hscripted
      obtain ⟨emit, c₁, hs, hemit, hlater⟩ := stages_cons_eq_ok h
      obtain ⟨part, hpart⟩ := ((hstage emit hs).grows hemit).body
      obtain ⟨parts, hparts⟩ := ih hrest hlater
      exact ⟨part :: parts, .cons hs hemit hpart.symm hparts⟩

/-! ## Turns -/

namespace Plan

variable {p : Plan} {inputsToDrop : NameSet}

theorem upTo_eq_ok {stages : List Stage} {c c'' : Context}
    (h : p.upTo inputsToDrop stages c = .ok () c'') :
    ∃ c', Replay.inputs (p.inputColumns inputsToDrop) c = .ok () c'
      ∧ Replay.stages stages c' = .ok () c'' := by
  obtain ⟨_, c', hinputs, hstages⟩ := bind_eq_ok h
  exact ⟨c', hinputs, hstages⟩

theorem upTo_concat_eq_ok {before : List Stage} {stage : Stage} {c c'' : Context}
    (h : p.upTo inputsToDrop (before ++ [stage]) c = .ok () c'') :
    ∃ emit c', p.upTo inputsToDrop before c = .ok () c' ∧ stage.exporter? = some emit
      ∧ emit c' = .ok () c'' := by
  obtain ⟨start, hinputs, hstages⟩ := upTo_eq_ok h
  rw [Replay.stages_append] at hstages
  cases hbefore : Replay.stages before start with
  | error e c' =>
      rw [hbefore] at hstages
      cases hstages
  | ok u c' =>
      rw [hbefore] at hstages
      obtain ⟨emit, last, hs, hemit, hnone⟩ := Replay.stages_cons_eq_ok hstages
      obtain rfl : last = c'' := by
        injection hnone
      exact ⟨emit, c', by rw [upTo_apply, hinputs]; exact hbefore, hs, hemit⟩

theorem replay_eq_ok {outputsToDrop : NameSet} {c c' : Context}
    (h : p.replay inputsToDrop outputsToDrop c = .ok () c') :
    ∃ start finish, Replay.inputs (p.inputColumns inputsToDrop) c = .ok () start
      ∧ Replay.stages p.stages start = .ok () finish
      ∧ Replay.outputs (p.outputColumns inputsToDrop outputsToDrop) finish = .ok () c' := by
  obtain ⟨_, start, hinputs, h⟩ := bind_eq_ok h
  obtain ⟨_, finish, hstages, houtputs⟩ := bind_eq_ok h
  exact ⟨start, finish, hinputs, hstages, houtputs⟩

/-- What holds behind the inputs, and behind each stage when it holds in
front of it, holds behind all stages to which the replay comes. -/
theorem holds_behind (Holds : List Stage → Context → Prop)
    (hinputs : ∀ c, Replay.inputs (p.inputColumns inputsToDrop) {} = .ok () c → Holds [] c)
    (hturn : ∀ before stage emit c c', p.Turn inputsToDrop before stage emit c →
      emit c = .ok () c' → Holds before c → Holds (before ++ [stage]) c')
    {before : List Stage} (hbefore : before <+: p.stages) {c : Context}
    (h : p.upTo inputsToDrop before {} = .ok () c) : Holds before c := by
  induction before using List.reverseRecOn generalizing c with
  | nil =>
      obtain ⟨c', hreached, hnone⟩ := upTo_eq_ok h
      obtain rfl : c' = c := by
        injection hnone
      exact hinputs c' hreached
  | append_singleton before stage ih =>
      obtain ⟨emit, c', hreached, hs, hemit⟩ := upTo_concat_eq_ok h
      have hearlier : Holds before c' := ih ((List.prefix_append _ _).trans hbefore) hreached
      exact hturn before stage emit c' c ⟨hbefore, hs, hreached⟩ hemit hearlier

/-- What holds behind the inputs and is kept by every turn holds wherever the replay comes. -/
theorem holds_of_turns (Holds : Context → Prop)
    (hinputs : ∀ c, Replay.inputs (p.inputColumns inputsToDrop) {} = .ok () c → Holds c)
    (hturn : ∀ before stage emit c c', p.Turn inputsToDrop before stage emit c →
      emit c = .ok () c' → Holds c → Holds c')
    {before : List Stage} (hbefore : before <+: p.stages) {c : Context}
    (h : p.upTo inputsToDrop before {} = .ok () c) : Holds c :=
  holds_behind (fun _ => Holds) hinputs hturn hbefore h

theorem Turn.mem {before : List Stage} {stage : Stage} {emit : Build Unit} {c : Context}
    (h : p.Turn inputsToDrop before stage emit c) : stage ∈ p.stages :=
  h.position.subset (List.mem_append_right _ (List.mem_singleton_self stage))

/-- With a stage at the end, the turns are those from before and the one of that stage. -/
theorem Turn.of_pushTerminal {last : Stage} {before : List Stage} {stage : Stage}
    {emit : Build Unit} {c : Context}
    (h : (p.pushTerminal last).Turn inputsToDrop before stage emit c) :
    p.Turn inputsToDrop before stage emit c
      ∨ (before = p.stages ∧ stage = last ∧ p.upTo inputsToDrop p.stages {} = .ok () c) := by
  rcases List.prefix_concat_iff.mp h.position with heq | hearlier
  · obtain ⟨rfl, hlast⟩ := List.append_inj' heq rfl
    obtain rfl : stage = last := by
      injection hlast
    exact Or.inr ⟨rfl, rfl, h.reached⟩
  · exact Or.inl ⟨hearlier, h.exporter, h.reached⟩

end Plan

end ModelExport
