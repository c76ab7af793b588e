import ModelExport.Proofs.Context.Outcome

/-!
# Failed calls

A call that fails leaves the whole context as it was: the tables, the
bindings of the columns and both pools of names with their hints. Every
check of an operation therefore stands before its first effect. What
follows is answered as if the failed call had not been made
(`Call.failed_call_leaves_context`), and a run ends where the run of its
successful calls alone ends (`Call.run_successful`).
-/

namespace ModelExport

namespace Call

theorem Outcome.eq_of_error {c c' : Context} {call : Call} {e : BuildError}
    (h : Outcome c call (.error e) c') : c' = c := by
  cases h with
  | failed => rfl

theorem step_of_error {call : Call} {c : Context} {e : BuildError}
    (h : (call.step c).1 = .error e) : call.step c = (.error e, c) := by
  have houtcome := step_outcome call c
  rw [h] at houtcome
  exact Prod.ext h houtcome.eq_of_error

/-! ## Runs without their failed calls -/

/-- The calls that succeed when all are made in turn. -/
def successful : List Call → Context → List Call
  | [], _ => []
  | call :: calls, c =>
      if (call.step c).1.isOk then call :: successful calls (call.step c).2
      else successful calls (call.step c).2

theorem successful_cons_of_ok {call : Call} {c : Context} {answer : Answer}
    (h : (call.step c).1 = .ok answer) (calls : List Call) :
    successful (call :: calls) c = call :: successful calls (call.step c).2 := by
  rw [successful, h]
  rfl

theorem successful_cons_of_error {call : Call} {c : Context} {e : BuildError}
    (h : (call.step c).1 = .error e) (calls : List Call) :
    successful (call :: calls) c = successful calls c := by
  rw [successful, step_of_error h]
  rfl

/-- The successful calls alone have the answers that they had among the
failed ones, and lead to the same context. -/
theorem run_successful (calls : List Call) (c : Context) :
    run (successful calls c) c = ((run calls c).1.filter (·.isOk), (run calls c).2) := by
  induction calls generalizing c with
  | nil => rfl
  | cons call calls ih =>
      cases h : (call.step c).1 with
      | ok answer =>
          rw [successful_cons_of_ok h, run_cons, run_cons, ih, h]
          rfl
      | error e =>
          rw [successful_cons_of_error h, run_cons, ih, step_of_error h]
          rfl

/-! ## The headline theorem -/

/-- A call that fails in a reached context changes nothing in it. The
calls that follow have the answers, and so the names, that they have
without it, and lead to the same context. -/
theorem failed_call_leaves_context (calls later : List Call) (call : Call) (e : BuildError)
    (h : (call.step (run calls {}).2).1 = .error e) :
    let c := (run calls {}).2
    (call.step c).2 = c
      ∧ (run (calls ++ call :: later) {}).2 = (run (calls ++ later) {}).2
      ∧ (run (calls ++ later) {}).1 = (run calls {}).1 ++ (run later c).1
      ∧ (run (calls ++ call :: later) {}).1 = (run calls {}).1 ++ .error e :: (run later c).1 := by
  intro c
  have hstep : call.step c = (.error e, c) := step_of_error h
  refine ⟨by rw [hstep], ?_, by rw [run_append], ?_⟩
  · rw [run_append, run_append, run_cons, hstep]
  · rw [run_append, run_cons, hstep]

/-- A column whose kind is refused takes no name: the next input of that
column is the first with a number. -/
theorem failed_call_leaves_context_names :
    let calls : List Call := [.declareRef "x"]
    let refused : Call := .addInput (.ofKind .float64) "x"
    let later : List Call := [.addInput (.ofKind .float32) "x"]
    (refused.step (run calls {}).2).1 = .error (.noElementKind .float64)
      ∧ (run (calls ++ refused :: later) {}).2.inputs.map (·.name) = ["x1"]
      ∧ (refused.step (run calls {}).2).2 = (run calls {}).2
      ∧ (run (calls ++ refused :: later) {}).2 = (run (calls ++ later) {}).2 := by
  intro calls refused later
  have hrefused : (refused.step (run calls {}).2).1 = .error (.noElementKind .float64) := rfl
  obtain ⟨hsame, hlast, -⟩ := failed_call_leaves_context calls later refused _ hrefused
  exact ⟨hrefused, by decide +kernel, hsame, hlast⟩

end Call

end ModelExport
