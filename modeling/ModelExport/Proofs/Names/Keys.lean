import Mathlib.Logic.Relation
import ModelExport.Proofs.Names.Scope

/-!
# Keys that share no name

A key comes by its name in one of two ways: the name is drawn from the pool for
it, or somebody binds it by hand to a name that is taken. As long as nobody
binds by hand, a step can do no more than take names and give one of them, which
nobody had, to a key (`Scope.Draws`). So no two keys have one name, and a name
that was taken for no key stays without one, whatever keys, stems and reserved
names look like.

A scope is driven by calls here (`ScopeCall.run`). The variables of a context are
a scope too, and all that is said of sequences of draws holds of them as well.
-/

namespace ModelExport

namespace Scope

/-! ## Who has which name -/

/-- Each key is bound to a name that is taken. -/
def Backed (s : Scope) : Prop := ∀ key name, s.lookup? key = some name → s.contains name = true

/-- Different keys are bound to different names. -/
def KeysApart (s : Scope) : Prop :=
  ∀ key other name, s.lookup? key = some name → s.lookup? other = some name → key = other

/-- The name is taken, and no key is bound to it. -/
structure SetAside (s : Scope) (name : String) : Prop where
  taken : s.contains name = true
  unbound : ∀ key, s.lookup? key ≠ some name

theorem contains_iff (s : Scope) (name : String) :
    s.contains name = true ↔ name ∈ s.pool.names :=
  NamePool.contains_iff s.pool name

theorem backed_empty : Backed {} := fun _ _ h => by cases h

theorem keysApart_empty : KeysApart {} := fun _ _ _ h => by cases h

/-! ## Draws -/

/-- What a step can do that binds nothing by hand: take names for no key, or
take one that was free for a key. -/
inductive Draws (s s' : Scope) : Prop
  | kept (names : s.pool.names ⊆ s'.pool.names) (bindings : s'.bindings = s.bindings)
  | drawn {key name : String} (free : name ∉ s.pool.names)
      (names : s'.pool.names = name :: s.pool.names)
      (bindings : s'.bindings = (key, name) :: s.bindings)

variable {s s' : Scope}

theorem Draws.refl (s : Scope) : s.Draws s := .kept (List.Subset.refl _) rfl

theorem Draws.of_pick (s : Scope) (key : String) :
    s.Draws ((s.taking key).binding key (s.pool.pick key)) :=
  .drawn (s.pool.pick_not_mem key) rfl rfl

theorem Draws.names_subset (h : s.Draws s') : s.pool.names ⊆ s'.pool.names := by
  cases h with
  | kept names bindings => exact names
  | drawn free names bindings => exact names ▸ List.subset_cons_self _ _

theorem Draws.contains (h : s.Draws s') {name : String} (hname : s.contains name = true) :
    s'.contains name = true :=
  (s'.contains_iff name).mpr (h.names_subset ((s.contains_iff name).mp hname))

/-- A key has the name that it had, or one that was free. -/
theorem Draws.lookup?_cases (h : s.Draws s') {key name : String}
    (hname : s'.lookup? key = some name) :
    s.lookup? key = some name
      ∨ s.contains name = false ∧ s'.contains name = true
        ∧ ∀ other, s'.lookup? other = some name → other = key ∨ s.lookup? other = some name := by
  cases h with
  | kept names bindings => exact .inl (by rwa [lookup?_of_same bindings] at hname)
  | @drawn drawer drawn free names bindings =>
      rw [lookup?_of_binding bindings] at hname
      split at hname
      · next hkey =>
          obtain rfl := Option.some.inj hname
          refine .inr ⟨?_, ?_, fun other hother => ?_⟩
          · exact Bool.eq_false_iff.mpr fun htaken => free ((s.contains_iff _).mp htaken)
          · exact (s'.contains_iff _).mpr (names ▸ List.mem_cons_self ..)
          · rw [lookup?_of_binding bindings] at hother
            split at hother
            · next hsame => exact .inl (hsame.trans hkey.symm)
            · exact .inr hother
      · exact .inl hname

theorem Backed.draws (hs : s.Backed) (h : s.Draws s') : s'.Backed := by
  intro key name hname
  rcases h.lookup?_cases hname with hold | ⟨-, htaken, -⟩
  · exact h.contains (hs key name hold)
  · exact htaken

/-- A name that was free was nobody's, since all that is bound is taken. -/
theorem KeysApart.draws (hs : s.KeysApart) (hbacked : s.Backed) (h : s.Draws s') :
    s'.KeysApart := by
  intro key other name hkey hother
  rcases h.lookup?_cases hkey with hold | ⟨hfree, -, honly⟩
  · rcases h.lookup?_cases hother with hold' | ⟨hfree, -, -⟩
    · exact hs key other name hold hold'
    · rw [hbacked key name hold] at hfree
      cases hfree
  · rcases honly other hother with heq | hold
    · exact heq.symm
    · rw [hbacked other name hold] at hfree
      cases hfree

theorem SetAside.draws {name : String} (hs : s.SetAside name) (h : s.Draws s') :
    s'.SetAside name := by
  refine ⟨h.contains hs.taken, fun key hkey => ?_⟩
  rcases h.lookup?_cases hkey with hold | ⟨hfree, -, -⟩
  · exact hs.unbound key hold
  · rw [hs.taken] at hfree
    cases hfree

/-- A name that was free and is taken now, with all keys as they were. -/
theorem SetAside.of_minted {name : String} (hs : s.Backed) (hfree : name ∉ s.pool.names)
    (htaken : name ∈ s'.pool.names) (hbindings : s'.bindings = s.bindings) : s'.SetAside name := by
  refine ⟨(s'.contains_iff name).mpr htaken, fun key hkey => hfree ?_⟩
  rw [lookup?_of_same hbindings] at hkey
  exact (s.contains_iff name).mp (hs key name hkey)

/-- A name that a caller chose counts if it was free. -/
theorem SetAside.of_claiming (hs : s.Backed) (stem : String) {chosen : Option String}
    (hfree : ∀ n ∈ chosen, s.contains n = false) :
    (s.claiming stem chosen).2.SetAside (s.claiming stem chosen).1 := by
  refine .of_minted hs ?_ ((s.mem_names_claiming stem chosen _).mpr (.inl rfl))
    (s.bindings_claiming stem chosen)
  cases chosen with
  | none => exact s.pool.pick_not_mem stem
  | some name =>
      intro htaken
      have hcontains := hfree name rfl
      rw [(s.contains_iff name).mpr htaken] at hcontains
      cases hcontains

theorem Backed.binding (hs : s.Backed) (key : String) {name : String}
    (htaken : s.contains name = true) : (s.binding key name).Backed := by
  intro other n hn
  rw [lookup?_of_binding rfl] at hn
  split at hn
  · exact Option.some.inj hn ▸ htaken
  · exact hs other n hn

/-! ## Sequences of draws -/

/-- Draws lead from the one scope to the other. -/
abbrev DrawsMany : Scope → Scope → Prop := Relation.ReflTransGen Draws

theorem KeysApart.drawsMany (h : DrawsMany s s') (hs : s.KeysApart) (hbacked : s.Backed) :
    s'.KeysApart ∧ s'.Backed := by
  induction h with
  | refl => exact ⟨hs, hbacked⟩
  | tail _ hstep ih =>
      obtain ⟨hapart, hbacked⟩ := ih
      exact ⟨hapart.draws hbacked hstep, hbacked.draws hstep⟩

theorem SetAside.drawsMany {name : String} (h : DrawsMany s s') (hs : s.SetAside name) :
    s'.SetAside name := by
  induction h with
  | refl => exact hs
  | tail _ hstep ih => exact ih.draws hstep

end Scope

/-! ## Calls -/

/-- One operation on a scope, with its arguments. -/
inductive ScopeCall where
  | allocate (key : String)
  | fresh (stem : String)
  | lookupOrAllocate (key : String)
  | lookup (key : String)
  | bind (key name : String)
  | reserve (name : String)
  | contains (name : String)
  | isBound (key : String)

/-- What an operation on a scope answers. -/
inductive ScopeAnswer where
  | done
  | name (name : String)
  | held (name : Option String)
  | flag (b : Bool)
  deriving DecidableEq

namespace ScopeCall

/-- The answer of an operation that gives a name, with the scope that it leaves. -/
def naming (s : Scope) :
    Except ArgumentError (String × Scope) → Except ArgumentError ScopeAnswer × Scope
  | .ok (name, s') => (.ok (.name name), s')
  | .error e => (.error e, s)

def step : ScopeCall → Scope → Except ArgumentError ScopeAnswer × Scope
  | .allocate key, s => naming s (s.allocate key)
  | .fresh stem, s => naming s (s.fresh stem)
  | .lookupOrAllocate key, s => naming s (s.lookupOrAllocate key)
  | .lookup key, s => (.ok (.held (s.lookup? key)), s)
  | .bind key name, s =>
      match s.bind key name with
      | .ok s' => (.ok .done, s')
      | .error e => (.error e, s)
  | .reserve name, s => (.ok (.flag (s.reserve name).1), (s.reserve name).2)
  | .contains name, s => (.ok (.flag (s.contains name)), s)
  | .isBound key, s => (.ok (.flag (s.isBound key)), s)

/-- What the calls answer, one after the other, and the scope after the last. -/
def run : List ScopeCall → Scope → List (Except ArgumentError ScopeAnswer) × Scope
  | [], s => ([], s)
  | call :: calls, s =>
      let (answer, s) := call.step s
      let (answers, s) := run calls s
      (answer :: answers, s)

/-- The call, which had the answer, took the name for no key: it was asked for a
fresh name, or it reserved one that was free. -/
inductive Mints : ScopeCall → Except ArgumentError ScopeAnswer → String → Prop
  | fresh (stem name : String) : Mints (.fresh stem) (.ok (.name name)) name
  | reserve (name : String) : Mints (.reserve name) (.ok (.flag true)) name

/-! ### One call -/

variable {s : Scope}

theorem step_allocate (s : Scope) (key : String) :
    (step (.allocate key) s).2 = s
      ∨ (step (.allocate key) s).2 = (s.taking key).binding key (s.pool.pick key) := by
  by_cases h : key = ""
  · subst h
    exact .inl rfl
  · exact .inr (by rw [step, s.allocate_eq h, naming])

theorem step_fresh (s : Scope) {stem : String} (h : stem ≠ "") :
    step (.fresh stem) s = (.ok (.name (s.pool.pick stem)), s.taking stem) := by
  rw [step, s.fresh_eq h, naming]

theorem step_bind (s : Scope) (key name : String) :
    step (.bind key name) s
      = if s.contains name then (.ok .done, s.binding key name)
        else (.error (.unallocated key name), s) := by
  rw [step, Scope.bind]
  by_cases h : s.contains name = true
  · rw [if_pos h, if_pos h]
    rfl
  · rw [if_neg h, if_neg h]

/-- A call that binds nothing by hand draws. -/
theorem step_draws {call : ScopeCall} (h : ∀ key name, call ≠ .bind key name) (s : Scope) :
    s.Draws (call.step s).2 := by
  have hallocate : ∀ key, s.Draws (step (.allocate key) s).2 := by
    intro key
    rcases step_allocate s key with heq | heq
    · rw [heq]
      exact .refl s
    · rw [heq]
      exact .of_pick s key
  cases call with
  | allocate key => exact hallocate key
  | fresh stem =>
      by_cases hstem : stem = ""
      · subst hstem
        exact .refl s
      · rw [step_fresh s hstem]
        exact .kept (s.subset_taking stem) rfl
  | lookupOrAllocate key =>
      cases hkey : s.lookup? key with
      | some name =>
          rw [step, Scope.lookupOrAllocate, hkey]
          exact .refl s
      | none =>
          rw [step, Scope.lookupOrAllocate, hkey]
          exact hallocate key
  | bind key name => exact absurd rfl (h key name)
  | reserve name =>
      exact .kept (fun n hn => (NamePool.mem_names_reserve s.pool name n).mpr (.inr hn)) rfl
  | lookup _ | contains _ | isBound _ => exact .refl s

theorem step_backed (call : ScopeCall) (h : s.Backed) : (call.step s).2.Backed := by
  by_cases hcall : ∃ key name, call = .bind key name
  · obtain ⟨key, name, rfl⟩ := hcall
    rw [step_bind]
    split
    · next htaken => exact h.binding key htaken
    · exact h
  · exact h.draws (step_draws (fun key name heq => hcall ⟨key, name, heq⟩) s)

theorem setAside_of_mints {call : ScopeCall} {name : String} (h : s.Backed)
    (hmints : Mints call (call.step s).1 name) : (call.step s).2.SetAside name := by
  generalize hanswer : (call.step s).1 = answer at hmints
  cases hmints with
  | fresh stem name =>
      by_cases hstem : stem = ""
      · subst hstem
        cases hanswer
      · rw [step_fresh s hstem] at hanswer ⊢
        cases hanswer
        exact .of_minted h (s.pool.pick_not_mem stem) (List.mem_cons_self ..) rfl
  | reserve name =>
      have hfree : name ∉ s.pool.names := by
        intro htaken
        have hcontains := (NamePool.contains_iff s.pool name).mpr htaken
        rw [step, Scope.reserve, NamePool.reserve, if_pos hcontains] at hanswer
        cases hanswer
      exact .of_minted h hfree ((NamePool.mem_names_reserve s.pool name name).mpr (.inl rfl)) rfl

/-! ### Runs -/

theorem run_cons (call : ScopeCall) (calls : List ScopeCall) (s : Scope) :
    run (call :: calls) s
      = ((call.step s).1 :: (run calls (call.step s).2).1, (run calls (call.step s).2).2) := rfl

theorem run_append (calls later : List ScopeCall) (s : Scope) :
    (run (calls ++ later) s).2 = (run later (run calls s).2).2 := by
  induction calls generalizing s with
  | nil => rfl
  | cons call calls ih => exact ih (call.step s).2

theorem run_backed (calls : List ScopeCall) (h : s.Backed) : (run calls s).2.Backed := by
  induction calls generalizing s with
  | nil => exact h
  | cons call calls ih => exact ih (step_backed call h)

theorem run_drawsMany {calls : List ScopeCall} (h : ∀ key name, .bind key name ∉ calls)
    (s : Scope) : s.DrawsMany (run calls s).2 := by
  induction calls generalizing s with
  | nil => exact .refl
  | cons call calls ih =>
      have hcall : ∀ key name, call ≠ .bind key name :=
        fun key name heq => h key name (heq ▸ List.mem_cons_self ..)
      have hrest : ∀ key name, .bind key name ∉ calls :=
        fun key name hmem => h key name (List.mem_cons_of_mem _ hmem)
      exact .head (step_draws hcall s) (ih hrest _)

theorem run_keysApart {calls : List ScopeCall} (h : ∀ key name, .bind key name ∉ calls) :
    (run calls {}).2.KeysApart :=
  (Scope.keysApart_empty.drawsMany (run_drawsMany h {}) Scope.backed_empty).1

/-- What was taken for no key is no key's after the calls that follow. -/
theorem run_setAside {before after : List ScopeCall} {call : ScopeCall} {name : String}
    (h : ∀ key other, .bind key other ∉ after)
    (hmints : Mints call (call.step (run before {}).2).1 name) :
    (run (before ++ call :: after) {}).2.SetAside name := by
  rw [run_append, run_cons]
  have hbacked := run_backed before Scope.backed_empty
  exact (setAside_of_mints hbacked hmints).drawsMany (run_drawsMany h _)

end ScopeCall

end ModelExport
