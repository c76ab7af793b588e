import Mathlib.Data.List.Nodup
import Mathlib.Data.List.Perm.Subperm
import ModelExport.Names.Pool
import ModelExport.Proofs.Table.Lookup

/-!
# Fresh names and hints

`allocate` in two total functions: the name that a pool gives for a stem
(`pick`) and the pool afterwards (`taking`). Whatever the hints say, the
name is new, because the search is bounded by the number of names and
different numbers give different names (`le_length_of_numbered`).

That it is also the *least* numbered name rests on the hints, which save
the search from the start: they must neither skip a free number nor
start at zero. `Sound` says so, and every call keeps it, however a name
came in - by its own stem, by another stem that ends in digits, or by a
reservation - since names are never given back.
-/

namespace ModelExport

theorem decimal_ne_empty (n : Nat) : decimal n ≠ "" := by
  intro h
  have hchars : (digits n).map Digit.toChar = [] := by
    simpa [decimal] using congrArg String.toList h
  exact digits_ne_nil n (List.map_eq_nil_iff.mp hchars)

namespace NamePool

/-! ## Numbered names -/

theorem suffixed_injective (stem : String) : Function.Injective (suffixed stem) := by
  intro j k h
  have hchars : stem.toList ++ (decimal j).toList = stem.toList ++ (decimal k).toList := by
    simpa [suffixed] using congrArg String.toList h
  exact decimal_injective (String.toList_inj.mp (List.append_cancel_left hchars))

theorem suffixed_ne_stem (stem : String) (k : Nat) : suffixed stem k ≠ stem := by
  intro h
  have hchars : stem.toList ++ (decimal k).toList = stem.toList ++ [] := by
    simpa [suffixed] using congrArg String.toList h
  exact decimal_ne_empty k (String.toList_inj.mp (List.append_cancel_left hchars))

theorem suffixed_ne_empty (stem : String) (k : Nat) : suffixed stem k ≠ "" := by
  intro h
  have hchars : stem.toList ++ (decimal k).toList = [] := by
    simpa [suffixed] using congrArg String.toList h
  exact decimal_ne_empty k (String.toList_inj.mp (List.append_eq_nil_iff.mp hchars).2)

/-- A list holds as many names as it holds consecutive numbers of one stem. -/
theorem le_length_of_numbered {names : List String} {stem : String} {k n : Nat}
    (h : ∀ j, k ≤ j → j < k + n → suffixed stem j ∈ names) : n ≤ names.length := by
  have hnodup : ((List.range' k n).map (suffixed stem)).Nodup :=
    List.Nodup.map (suffixed_injective stem) (List.nodup_range')
  have hsub : (List.range' k n).map (suffixed stem) ⊆ names := by
    intro name hname
    obtain ⟨j, hj, rfl⟩ := List.mem_map.mp hname
    obtain ⟨hkj, hjn⟩ := List.mem_range'_1.mp hj
    exact h j hkj hjn
  simpa using (hnodup.subperm hsub).length_le

/-! ## The search -/

variable {names : List String} {stem : String}

@[simp] theorem contains_iff (p : NamePool) (name : String) :
    p.contains name = true ↔ name ∈ p.names :=
  List.contains_iff_mem

theorem le_firstFree (names : List String) (stem : String) (bound k : Nat) :
    k ≤ firstFree names stem bound k := by
  induction bound generalizing k with
  | zero => exact Nat.le_refl k
  | succ bound ih =>
      unfold firstFree
      split
      · exact Nat.le_of_succ_le (ih (k + 1))
      · exact Nat.le_refl k

/-- Whatever the search passes is taken. -/
theorem mem_of_lt_firstFree {bound k j : Nat} (hk : k ≤ j)
    (hj : j < firstFree names stem bound k) : suffixed stem j ∈ names := by
  induction bound generalizing k with
  | zero => exact absurd hj (Nat.not_lt.mpr hk)
  | succ bound ih =>
      unfold firstFree at hj
      split at hj
      · next htaken =>
          rcases Nat.eq_or_lt_of_le hk with rfl | hlt
          · exact List.contains_iff_mem.mp htaken
          · exact ih hlt hj
      · exact absurd hj (Nat.not_lt.mpr hk)

/-- The search ends at a free number, or it uses up its bound. -/
theorem firstFree_free_or_eq (names : List String) (stem : String) (bound k : Nat) :
    suffixed stem (firstFree names stem bound k) ∉ names
      ∨ firstFree names stem bound k = k + bound := by
  induction bound generalizing k with
  | zero => exact Or.inr rfl
  | succ bound ih =>
      unfold firstFree
      split
      · rcases ih (k + 1) with hfree | heq
        · exact Or.inl hfree
        · exact Or.inr (by omega)
      · next hfree => exact Or.inl fun hmem => hfree (List.contains_iff_mem.mpr hmem)

/-- With as many steps as there are names the search ends at a free number. -/
theorem firstFree_not_mem {bound : Nat} (hbound : names.length ≤ bound) (k : Nat) :
    suffixed stem (firstFree names stem bound k) ∉ names := by
  rcases firstFree_free_or_eq names stem bound k with hfree | heq
  · exact hfree
  · intro hmem
    have hall : ∀ j, k ≤ j → j < k + (bound + 1) → suffixed stem j ∈ names := by
      intro j hkj hj
      rcases Nat.lt_or_ge j (k + bound) with hlt | hge
      · exact mem_of_lt_firstFree hkj (heq ▸ hlt)
      · obtain rfl : j = firstFree names stem bound k := by omega
        exact hmem
    have := le_length_of_numbered hall
    omega

/-! ## Taking a fresh name -/

/-- The number that the search for the stem ends at. -/
def found (p : NamePool) (stem : String) : Nat := firstFree p.names stem p.size (p.hint stem)

/-- The fresh name that the pool gives for the stem. -/
def pick (p : NamePool) (stem : String) : String :=
  if p.contains stem then suffixed stem (p.found stem) else stem

/-- The pool after it gave a fresh name for the stem. -/
def taking (p : NamePool) (stem : String) : NamePool where
  names := p.pick stem :: p.names
  hints := if p.contains stem then (stem, p.found stem + 1) :: p.hints else p.hints

theorem allocate_eq (p : NamePool) (h : stem ≠ "") :
    p.allocate stem = .ok (p.pick stem, p.taking stem) := by
  by_cases hstem : p.contains stem = true
  · simp [allocate, taking, pick, found, h, hstem]
  · simp [allocate, taking, pick, h, hstem]

@[simp] theorem names_taking (p : NamePool) (stem : String) :
    (p.taking stem).names = p.pick stem :: p.names := rfl

theorem pick_not_mem (p : NamePool) (stem : String) : p.pick stem ∉ p.names := by
  unfold pick
  split
  · exact firstFree_not_mem (Nat.le_refl _) _
  · next hfree => exact fun hmem => hfree ((contains_iff p _).mpr hmem)

theorem pick_ne_empty (p : NamePool) (h : stem ≠ "") : p.pick stem ≠ "" := by
  unfold pick
  split
  · exact suffixed_ne_empty _ _
  · exact h

theorem mem_names_reserve (p : NamePool) (name n : String) :
    n ∈ (p.reserve name).2.names ↔ n = name ∨ n ∈ p.names := by
  unfold reserve
  split
  · next htaken =>
      have hname : name ∈ p.names := (contains_iff p name).mp htaken
      constructor
      · exact Or.inr
      · rintro (rfl | hn)
        · exact hname
        · exact hn
  · exact List.mem_cons

/-! ## What the hints promise -/

/-- Below the hint of a stem there is no free number, and no name is held twice. -/
structure Sound (p : NamePool) : Prop where
  nodup : p.names.Nodup
  hint_pos : ∀ stem, 1 ≤ p.hint stem
  taken_below_hint : ∀ stem k, 1 ≤ k → k < p.hint stem → suffixed stem k ∈ p.names

theorem sound_empty : Sound {} where
  nodup := List.nodup_nil
  hint_pos _ := Nat.le_refl 1
  taken_below_hint _ _ hk hlt := absurd hlt (Nat.not_lt.mpr hk)

theorem hint_cons (ns : List String) (hints : List (String × Nat)) (key : String) (k : Nat)
    (stem : String) :
    hint ⟨ns, (key, k) :: hints⟩ stem = if stem = key then k else hint ⟨ns, hints⟩ stem := by
  unfold hint
  rw [lookup_cons_ite]
  split <;> rfl

/-- Every number below the new hint is passed by the search, passed by an
earlier one, or just taken. -/
theorem Sound.taking {p : NamePool} (hp : p.Sound) (stem : String) : (p.taking stem).Sound where
  nodup := List.nodup_cons.mpr ⟨pick_not_mem p stem, hp.nodup⟩
  hint_pos key := by
    unfold NamePool.taking
    split
    · rw [hint_cons]
      split
      · exact Nat.le_add_left 1 _
      · exact hp.hint_pos key
    · exact hp.hint_pos key
  taken_below_hint key k hk hlt := by
    by_cases hnew : p.contains stem = true ∧ key = stem
    · obtain ⟨hstem, rfl⟩ := hnew
      have hpick : p.pick key = suffixed key (p.found key) :=
        if_pos hstem
      rw [NamePool.taking, if_pos hstem, hint_cons, if_pos rfl] at hlt
      rw [names_taking, List.mem_cons, hpick]
      rcases Nat.eq_or_lt_of_le (Nat.le_of_lt_succ hlt) with rfl | hlt
      · exact Or.inl rfl
      · refine Or.inr ?_
        rcases Nat.lt_or_ge k (p.hint key) with hbelow | habove
        · exact hp.taken_below_hint key k hk hbelow
        · exact mem_of_lt_firstFree habove hlt
    · have hsame : (p.taking stem).hint key = p.hint key := by
        unfold NamePool.taking
        split
        · next hstem => rw [hint_cons, if_neg fun heq => hnew ⟨hstem, heq⟩]; rfl
        · rfl
      rw [hsame] at hlt
      exact List.mem_cons_of_mem _ (hp.taken_below_hint key k hk hlt)

theorem Sound.reserve {p : NamePool} (hp : p.Sound) (name : String) : (p.reserve name).2.Sound := by
  unfold NamePool.reserve
  split
  · exact hp
  · next hfree =>
      refine ⟨List.nodup_cons.mpr ⟨?_, hp.nodup⟩, hp.hint_pos, ?_⟩
      · exact fun hmem => hfree ((contains_iff p _).mpr hmem)
      · exact fun key k hk hlt => List.mem_cons_of_mem _ (hp.taken_below_hint key k hk hlt)

end NamePool

end ModelExport
