import ModelExport.Proofs.Context.Growth

/-!
# Assignments of declared names

A statement may overwrite a name only if the name is there: a parameter of
the program, or introduced by a statement above (`OverwritesDeclared`). The
operations that write statements of their own keep to this. A literal goes
into an output or introduces its name, an element introduces its name, and
an output is assigned when it is registered. What is left to the caller are
the statements that are added as they stand. If these keep to it, so does
the whole body (`Call.overwritesDeclared_run`), where a parameter may also
be registered below the statement that overwrites it.

The names that count as parameters are a predicate: the calls of a mapper
also overwrite names that it was handed, and these were introduced above
all that it adds (`Call.AddDeclared.of_known`).
-/

namespace ModelExport

/-! ## Statements -/

/-- The names that the statement introduces for those below it. -/
def Expr.introduced : Expr → List String
  | .bind bindings => bindings.map Binding.name
  | _ => []

/-- One of the statements introduces the name. -/
def Introduced (statements : List Expr) (name : String) : Prop :=
  ∃ e ∈ statements, name ∈ e.introduced

/-- Behind the body, the statements overwrite only names that are known or
introduced above. -/
def OverwritesDeclared (known : String → Prop) (body statements : List Expr) : Prop :=
  ∀ above name value below, statements = above ++ .assign name value :: below →
    known name ∨ Introduced (body ++ above) name

theorem Introduced.mono {statements later : List Expr} {name : String}
    (h : Introduced statements name) (hsub : statements ⊆ later) : Introduced later name := by
  obtain ⟨e, he, hname⟩ := h
  exact ⟨e, hsub he, hname⟩

namespace OverwritesDeclared

variable {known known' : String → Prop} {body statements later : List Expr}

theorem of_assigned (h : ∀ name value, .assign name value ∈ statements →
    known name ∨ Introduced body name) : OverwritesDeclared known body statements := by
  rintro above name value below rfl
  have hmem : .assign name value ∈ above ++ .assign name value :: below :=
    List.mem_append_right _ (List.mem_cons_self ..)
  exact (h name value hmem).imp_right (·.mono (List.subset_append_left ..))

theorem nil : OverwritesDeclared known body [] :=
  of_assigned fun _ _ h => absurd h List.not_mem_nil

theorem bindOne (name : String) (value : Expr) :
    OverwritesDeclared known body [.bindOne name value] :=
  of_assigned fun _ _ h => by cases List.mem_singleton.mp h

theorem assign {name : String} (h : known name) (value : Expr) :
    OverwritesDeclared known body [.assign name value] := by
  refine of_assigned fun _ _ hmem => Or.inl ?_
  cases List.mem_singleton.mp hmem
  exact h

theorem append (h : OverwritesDeclared known body statements)
    (hlater : OverwritesDeclared known (body ++ statements) later) :
    OverwritesDeclared known body (statements ++ later) := by
  intro above name value below heq
  rcases List.append_eq_append_iff.mp heq with ⟨between, rfl, hsplit⟩ | ⟨rest, hsplit, hrest⟩
  · rw [← List.append_assoc]
    exact hlater between name value below hsplit
  · cases rest with
    -- Nothing is left of the first part: the statement is the first of the later ones.
    | nil =>
        rw [List.append_nil] at hsplit
        subst hsplit
        have hfirst := hlater [] name value below hrest.symm
        rwa [List.append_nil] at hfirst
    | cons e rest =>
        obtain ⟨rfl, -⟩ := List.cons.inj hrest
        exact h above name value rest hsplit

/-- Names that are introduced in the body need not be known. -/
theorem of_known (h : OverwritesDeclared known' body statements)
    (hknown : ∀ name, known' name → known name ∨ Introduced body name) :
    OverwritesDeclared known body statements := by
  intro above name value below heq
  rcases h above name value below heq with hname | hname
  · exact (hknown name hname).imp_right (·.mono (List.subset_append_left ..))
  · exact Or.inr hname

end OverwritesDeclared

/-! ## Calls -/

namespace Call

/-- Where the calls come to add statements as they stand, these overwrite
only names that are known or introduced in the body by then. -/
def AddDeclared (known : String → Prop) : List Call → Context → Prop
  | [], _ => True
  | call :: calls, c =>
      OverwritesDeclared known c.body call.statements ∧ AddDeclared known calls (call.step c).2

variable {known known' : String → Prop}

theorem AddDeclared.append {calls later : List Call} {c : Context}
    (h : AddDeclared known calls c) (hlater : AddDeclared known later (run calls c).2) :
    AddDeclared known (calls ++ later) c := by
  induction calls generalizing c with
  | nil => exact hlater
  | cons call calls ih =>
      obtain ⟨hcall, hcalls⟩ := h
      exact ⟨hcall, ih hcalls hlater⟩

theorem AddDeclared.of_known {calls : List Call} {c : Context} (h : AddDeclared known' calls c)
    (hknown : ∀ name, known' name → known name ∨ Introduced c.body name) :
    AddDeclared known calls c := by
  induction calls generalizing c with
  | nil => trivial
  | cons call calls ih =>
      obtain ⟨hcall, hcalls⟩ := h
      have hbody := ((step_outcome call c).grows).body
      refine ⟨hcall.of_known hknown, ih hcalls fun name hname => ?_⟩
      exact (hknown name hname).imp_right (·.mono hbody.subset)

/-- What one call adds to the body keeps to declared names if what it was
given does, and if the outputs behind it are known. -/
theorem Outcome.overwritesDeclared {c c' : Context} {call : Call}
    {answer : Except BuildError Answer} (h : Outcome c call answer c')
    (hadd : OverwritesDeclared known c.body call.statements)
    (hknown : ∀ output ∈ c'.outputs, known output.name) :
    ∃ added, c'.body = c.body ++ added ∧ OverwritesDeclared known c.body added := by
  cases h.writing with
  | nothing _ body => exact ⟨[], by rw [body, List.append_nil], .nil⟩
  | added _ body => exact ⟨call.statements, body, hadd⟩
  | introduced _ body => exact ⟨_, body, .bindOne _ _⟩
  | @overwrote output value mem outputs body =>
      rw [outputs] at hknown
      exact ⟨_, body, .assign (hknown output mem) value⟩
  | put _ outputs body =>
      have hname := hknown _ (outputs ▸ List.mem_append_right _ (List.mem_singleton_self _))
      exact ⟨_, body, .assign hname _⟩

theorem overwritesDeclared_run {calls : List Call} {c : Context} (h : AddDeclared known calls c)
    (hknown : ∀ output ∈ (run calls c).2.outputs, known output.name)
    (hc : OverwritesDeclared known [] c.body) :
    OverwritesDeclared known [] (run calls c).2.body := by
  induction calls generalizing c with
  | nil => exact hc
  | cons call calls ih =>
      obtain ⟨hcall, hcalls⟩ := h
      have hlater := (run_grows calls (call.step c).2).outputs
      obtain ⟨added, hadded, hdeclared⟩ := (step_outcome call c).overwritesDeclared hcall
        fun output houtput => hknown output (hlater.subset houtput)
      have hbody : OverwritesDeclared known [] (call.step c).2.body := by
        rw [hadded]
        exact hc.append hdeclared
      exact ih hcalls hknown hbody

end Call

/-! ## Contributions -/

/-- Made in this context, the contribution does what some calls do that add
only statements which overwrite declared names. -/
def Build.AddsDeclared {α : Type} (known : String → Prop) (b : Build α) (c : Context) : Prop :=
  ∀ a c', b c = .ok a c' → ∃ calls, (Call.run calls c).2 = c' ∧ Call.AddDeclared known calls c

namespace Build

variable {α β : Type} {known known' : String → Prop} {c c' : Context}

namespace AddsDeclared

theorem bind {b : Build α} {f : α → Build β} (hb : b.AddsDeclared known c)
    (hf : ∀ a c', b c = .ok a c' → (f a).AddsDeclared known c') :
    AddsDeclared known (b >>= f) c := by
  intro a c'' h
  obtain ⟨a₁, c₁, hfirst, hrest⟩ := bind_eq_ok h
  obtain ⟨calls, rfl, hcalls⟩ := hb a₁ c₁ hfirst
  obtain ⟨later, rfl, hlater⟩ := hf a₁ _ hfirst a c'' hrest
  exact ⟨calls ++ later, by rw [Call.run_append], hcalls.append hlater⟩

theorem of_map {b : Build α} {f : α → β} (h : AddsDeclared known (f <$> b) c) :
    b.AddsDeclared known c := by
  intro a c' hrun
  exact h (f a) c' (by rw [map_apply, hrun])

theorem of_known {b : Build α} (h : b.AddsDeclared known' c)
    (hknown : ∀ name, known' name → known name ∨ Introduced c.body name) :
    b.AddsDeclared known c := by
  intro a c' hrun
  obtain ⟨calls, hcalls, hadd⟩ := h a c' hrun
  exact ⟨calls, hcalls, hadd.of_known hknown⟩

theorem reaches {b : Build α} (h : b.AddsDeclared known c) {a : α} (hrun : b c = .ok a c') :
    c.Reaches c' := by
  obtain ⟨calls, hcalls, -⟩ := h a c' hrun
  exact ⟨calls, hcalls⟩

theorem overwritesDeclared {b : Build α} (h : b.AddsDeclared known c) {a : α}
    (hrun : b c = .ok a c') (hknown : ∀ output ∈ c'.outputs, known output.name)
    (hc : OverwritesDeclared known [] c.body) : OverwritesDeclared known [] c'.body := by
  obtain ⟨calls, rfl, hadd⟩ := h a c' hrun
  exact Call.overwritesDeclared_run hadd hknown hc

end AddsDeclared

/-! ### Operations -/

theorem addsDeclared_pure (a : α) : AddsDeclared known (pure a) c := by
  intro a' c' h
  injection h with _ hcontext
  exact ⟨[], hcontext, trivial⟩

theorem addsDeclared_perform (call : Call)
    (h : OverwritesDeclared known c.body call.statements) : call.perform.AddsDeclared known c := by
  intro a c' hrun
  refine ⟨[call], ?_, h, trivial⟩
  show (call.step c).2 = c'
  rw [Call.step_eq, hrun]

theorem addsDeclared_lookupOrAllocate (column : String) :
    (lookupOrAllocate column).AddsDeclared known c :=
  .of_map (addsDeclared_perform (.lookupOrAllocate column) .nil)

theorem addsDeclared_addIntermediate (type : ColumnType) (column : String) :
    (addIntermediate type column).AddsDeclared known c :=
  .of_map (addsDeclared_perform (.addIntermediate type column) .nil)

theorem addsDeclared_addExpr {e : Expr} (h : OverwritesDeclared known c.body [e]) :
    (addExpr e).AddsDeclared known c := by
  intro u c' hrun
  injection hrun with _ hcontext
  exact ⟨[.addExpr e], hcontext, h, trivial⟩

theorem addsDeclared_addExprs {es : List Expr} (h : OverwritesDeclared known c.body es) :
    (addExprs es).AddsDeclared known c := by
  intro u c' hrun
  injection hrun with _ hcontext
  exact ⟨[.addExprs es], hcontext, h, trivial⟩

end Build

end ModelExport
