import Mathlib.Data.List.DropRight
import ModelExport.Export.Options
import ModelExport.Proofs.Table.Sorted

/-!
# Lists of names

A list of names is cut at its commas and every part is trimmed, so a comma
between two lists unites their names, and nothing but the names themselves is
left of a list: no comma, no blank at an end, no empty name. The other way
round, every set of such names is read from any list of it, whatever the order,
the repetitions and the blanks. `NameSet.ofCommas_listing` says all of that.

Trimming takes the blanks off one end and then off the other. What keeps the two
apart is `dropWhile_rdropWhile`: the second one cannot uncover a blank at the
first end.
-/

namespace ModelExport

/-! ## Parts -/

theorem cutAt_eq_splitOn (separator : Char) (cs : List Char) :
    cutAt separator cs = cs.splitOn separator := by
  induction cs with
  | nil => rfl
  | cons c rest ih =>
      rw [List.splitOn_cons_eq_if_modifyHead, ← ih, cutAt]
      by_cases h : c = separator
      · rw [if_pos h, if_pos (beq_iff_eq.mpr h)]
      · rw [if_neg h, if_neg (mt beq_iff_eq.mp h)]
        obtain ⟨part, parts, hparts⟩ := List.exists_cons_of_ne_nil (cutAt_ne_nil separator rest)
        rw [hparts]
        rfl

theorem cutAt_append_cons (separator : Char) (cs ds : List Char) :
    cutAt separator (cs ++ separator :: ds) = cutAt separator cs ++ cutAt separator ds := by
  simp only [cutAt_eq_splitOn]
  exact List.splitOnP_append_cons cs ds (beq_self_eq_true separator)

theorem not_mem_of_mem_cutAt {separator : Char} {cs part : List Char}
    (h : part ∈ cutAt separator cs) : separator ∉ part := by
  induction cs generalizing part with
  | nil =>
      obtain rfl := List.mem_singleton.mp h
      exact List.not_mem_nil
  | cons c rest ih =>
      unfold cutAt at h
      split at h
      · rcases List.mem_cons.mp h with rfl | h
        · exact List.not_mem_nil
        · exact ih h
      · next hc =>
          obtain ⟨first, parts, hparts⟩ := List.exists_cons_of_ne_nil (cutAt_ne_nil separator rest)
          rw [hparts] at h ih
          rcases List.mem_cons.mp h with rfl | h
          · simpa [Ne.symm hc] using ih List.mem_cons_self
          · exact ih (List.mem_cons_of_mem _ h)

theorem cutAt_intercalate {separator : Char} {parts : List (List Char)}
    (h : ∀ part ∈ parts, separator ∉ part) (hne : parts ≠ []) :
    cutAt separator ([separator].intercalate parts) = parts := by
  rw [cutAt_eq_splitOn, List.splitOn_intercalate separator h hne]

/-! ## Trimming -/

theorem trimBlanks_eq (cs : List Char) :
    trimBlanks cs = (cs.dropWhile isBlank).rdropWhile isBlank := rfl

theorem dropWhile_rdropWhile {α : Type} (p : α → Bool) {l : List α} (h : l.dropWhile p = l) :
    (l.rdropWhile p).dropWhile p = l.rdropWhile p := by
  rw [List.dropWhile_eq_self_iff] at h ⊢
  intro hpos
  have hinitial : l.rdropWhile p <+: l := List.rdropWhile_prefix p l
  rw [hinitial.getElem hpos]
  exact h (Nat.lt_of_lt_of_le hpos hinitial.length_le)

theorem trimBlanks_trimBlanks (cs : List Char) : trimBlanks (trimBlanks cs) = trimBlanks cs := by
  simp only [trimBlanks_eq]
  rw [dropWhile_rdropWhile _ (List.dropWhile_idempotent _ _), List.rdropWhile_idempotent]

theorem mem_of_mem_trimBlanks {c : Char} {cs : List Char} (h : c ∈ trimBlanks cs) : c ∈ cs :=
  (List.dropWhile_suffix isBlank).subset ((List.rdropWhile_prefix isBlank _).subset h)

theorem trimBlanks_eq_nil {cs : List Char} (h : ∀ c ∈ cs, isBlank c = true) :
    trimBlanks cs = [] := by
  rw [trimBlanks_eq, List.dropWhile_eq_nil_iff.mpr h, List.rdropWhile_nil]

theorem rdropWhile_append_of_pos {α : Type} {p : α → Bool} {l after : List α}
    (h : ∀ a ∈ after, p a = true) : (l ++ after).rdropWhile p = l.rdropWhile p := by
  rw [List.rdropWhile, List.reverse_append, List.dropWhile_append_of_pos (by simpa using h)]
  rfl

/-- Blanks around a text come off with its own. -/
theorem trimBlanks_pad {before after : List Char} (hbefore : ∀ c ∈ before, isBlank c = true)
    (hafter : ∀ c ∈ after, isBlank c = true) (cs : List Char) :
    trimBlanks (before ++ (cs ++ after)) = trimBlanks cs := by
  rw [trimBlanks_eq, List.dropWhile_append_of_pos hbefore, List.dropWhile_append]
  split
  · next hblank =>
      rw [List.isEmpty_iff, List.dropWhile_eq_nil_iff] at hblank
      rw [List.dropWhile_eq_nil_iff.mpr hafter, List.rdropWhile_nil, trimBlanks_eq_nil hblank]
  · rw [rdropWhile_append_of_pos hafter, trimBlanks_eq]

namespace NameSet

/-! ## Names -/

variable {n : String}

theorem mem_names_ofCommas {text : String} :
    n ∈ (ofCommas text).names
      ↔ n ≠ "" ∧ ∃ part ∈ cutAt ',' text.toList, trimBlanks part = n.toList := by
  rw [ofCommas, mem_names_ofNames]
  simp only [List.mem_map, List.mem_filter]
  constructor
  · rintro ⟨_, ⟨⟨part, hpart, rfl⟩, hne⟩, rfl⟩
    refine ⟨?_, part, hpart, String.toList_ofList.symm⟩
    simpa [String.ofList_eq_empty_iff] using hne
  · rintro ⟨hne, part, hpart, htrim⟩
    refine ⟨n.toList, ⟨⟨part, hpart, htrim⟩, ?_⟩, String.ofList_toList⟩
    simpa using hne

/-- A name that a list can hold: there is something of it, no comma in it, and no blank at
its ends. -/
structure Listable (name : String) : Prop where
  ne_empty : name ≠ ""
  comma_not_mem : ',' ∉ name.toList
  trimmed : trimBlanks name.toList = name.toList

theorem listable_of_mem {text : String} (h : n ∈ (ofCommas text).names) : Listable n := by
  obtain ⟨hne, part, hpart, htrim⟩ := mem_names_ofCommas.mp h
  refine ⟨hne, ?_, ?_⟩
  · rw [← htrim]
    exact fun hc => not_mem_of_mem_cutAt hpart (mem_of_mem_trimBlanks hc)
  · rw [← htrim, trimBlanks_trimBlanks]

theorem ofCommas_append (a b : String) :
    ofCommas (a ++ "," ++ b) = (ofCommas a).union (ofCommas b) := by
  have hparts : cutAt ',' (a ++ "," ++ b).toList
      = cutAt ',' a.toList ++ cutAt ',' b.toList := by
    rw [← cutAt_append_cons]
    simp
  refine eq_of_mem_iff fun n => ?_
  simp only [mem_names_union, mem_names_ofCommas, hparts, List.mem_append, or_and_right,
    exists_or, and_or_left]

theorem dropInputs_append (o : Options) (a b : String) :
    (o.dropInputs a).dropInputs b = o.dropInputs (a ++ "," ++ b) := by
  rw [Options.dropInputs, Options.dropInputs, Options.dropInputs, ofCommas_append, union_assoc]

theorem dropOutputs_append (o : Options) (a b : String) :
    (o.dropOutputs a).dropOutputs b = o.dropOutputs (a ++ "," ++ b) := by
  rw [Options.dropOutputs, Options.dropOutputs, Options.dropOutputs, ofCommas_append, union_assoc]

/-! ## Listings -/

/-- What stands between two commas: a name or nothing, with blanks around it. -/
structure Segment where
  name? : Option String
  before : List Char := []
  after : List Char := []
  blank_before : before.all isBlank = true := by decide
  blank_after : after.all isBlank = true := by decide

namespace Segment

/-- The name without the blanks. -/
def core (s : Segment) : List Char := (s.name?.getD "").toList

def chars (s : Segment) : List Char := s.before ++ (s.core ++ s.after)

variable {s : Segment}

theorem core_eq_iff (hne : n ≠ "") : s.core = n.toList ↔ s.name? = some n := by
  cases h : s.name? with
  | none => simp [core, h, hne]
  | some m => simp [core, h, String.toList_inj]

theorem comma_not_mem_chars (h : ∀ m ∈ s.name?, ',' ∉ m.toList) : ',' ∉ s.chars := by
  have hcomma : ¬ isBlank ',' = true := by decide
  rw [chars, List.mem_append, List.mem_append]
  rintro (hmem | hmem | hmem)
  · exact hcomma (List.all_eq_true.mp s.blank_before _ hmem)
  · cases hname : s.name? with
    | none => simp [core, hname] at hmem
    | some m => exact h m hname (by simpa [core, hname] using hmem)
  · exact hcomma (List.all_eq_true.mp s.blank_after _ hmem)

theorem trimBlanks_chars (h : ∀ m ∈ s.name?, Listable m) : trimBlanks s.chars = s.core := by
  rw [chars, trimBlanks_pad (List.all_eq_true.mp s.blank_before)
    (List.all_eq_true.mp s.blank_after)]
  cases hname : s.name? with
  | none => simp [core, hname, trimBlanks]
  | some m => simpa [core, hname] using (h m hname).trimmed

end Segment

/-- The segments with commas between them. -/
def listing (segments : List Segment) : String :=
  String.ofList ([','].intercalate (segments.map Segment.chars))

theorem mem_names_listing {segments : List Segment}
    (h : ∀ s ∈ segments, ∀ m ∈ s.name?, Listable m) :
    n ∈ (ofCommas (listing segments)).names
      ↔ n ≠ "" ∧ n ∈ segments.filterMap (·.name?) := by
  rw [mem_names_ofCommas, listing, String.toList_ofList, List.mem_filterMap]
  refine and_congr_right fun hne => ?_
  by_cases hnil : segments = []
  · subst hnil
    simp [List.intercalate, cutAt, trimBlanks, hne]
  · rw [cutAt_intercalate ?_ (by simpa using hnil)]
    · simp only [List.mem_map, exists_exists_and_eq_and]
      refine exists_congr fun s => and_congr_right fun hs => ?_
      rw [Segment.trimBlanks_chars (h s hs), Segment.core_eq_iff hne]
    · intro part hpart
      obtain ⟨s, hs, rfl⟩ := List.mem_map.mp hpart
      exact Segment.comma_not_mem_chars fun m hm => (h s hs m hm).comma_not_mem

/-- A list that is put together from two with a comma is read as the union of both, so columns
may be left out list by list or all at once. What is read from a list are names that a list
can hold. And every set of such names is read from every listing of it. -/
theorem ofCommas_listing :
    (∀ a b : String, ofCommas (a ++ "," ++ b) = (ofCommas a).union (ofCommas b))
    ∧ (∀ (o : Options) (a b : String),
        (o.dropInputs a).dropInputs b = o.dropInputs (a ++ "," ++ b)
          ∧ (o.dropOutputs a).dropOutputs b = o.dropOutputs (a ++ "," ++ b))
    ∧ (∀ text : String, ∀ n ∈ (ofCommas text).names, Listable n)
    ∧ ∀ (names : NameSet) (segments : List Segment), (∀ n ∈ names.names, Listable n) →
        (∀ n, n ∈ names.names ↔ n ∈ segments.filterMap (·.name?)) →
        ofCommas (listing segments) = names := by
  refine ⟨ofCommas_append, fun o a b => ⟨dropInputs_append o a b, dropOutputs_append o a b⟩,
    fun text n => listable_of_mem, ?_⟩
  intro names segments hlistable hlists
  have hsegments : ∀ s ∈ segments, ∀ m ∈ s.name?, Listable m := fun s hs m hm =>
    hlistable m ((hlists m).mpr (List.mem_filterMap.mpr ⟨s, hs, hm⟩))
  refine eq_of_mem_iff fun n => ?_
  rw [mem_names_listing hsegments, ← hlists]
  exact and_iff_right_of_imp fun hn => (hlistable n hn).ne_empty

/-- A name with a blank inside is listed twice, among blanks of several kinds and segments
without a name. -/
theorem ofCommas_listing_spaced :
    let names : NameSet := ofNames ["my col", "Label"]
    let segments : List Segment :=
      [{ name? := some "my col", before := ['\u3000', ' '], after := ['\t'] },
       { name? := none, before := ['\u00a0'] }, { name? := none },
       { name? := some "Label" }, { name? := some "my col", after := ['\u2028'] }]
    (∀ n ∈ names.names, Listable n)
      ∧ (∀ n, n ∈ names.names ↔ n ∈ segments.filterMap (·.name?))
      ∧ listing segments = "\u3000 my col\t,\u00a0,,Label,my col\u2028"
      ∧ ofCommas (listing segments) = names := by
  intro names segments
  have hnames : ∀ n ∈ names.names, Listable n := by
    intro n hn
    rw [mem_names_ofNames, List.mem_pair] at hn
    rcases hn with rfl | rfl
    · exact ⟨by decide, by decide, by decide⟩
    · exact ⟨by decide, by decide, by decide⟩
  have hlists : ∀ n, n ∈ names.names ↔ n ∈ segments.filterMap (·.name?) := by
    intro n
    have hnamed : segments.filterMap (·.name?) = ["my col", "Label"] ++ ["my col"] := rfl
    rw [mem_names_ofNames, hnamed, List.mem_append, List.mem_singleton]
    exact (or_iff_left_of_imp fun h => h ▸ List.mem_cons_self).symm
  exact ⟨hnames, hlists, by decide, ofCommas_listing.2.2.2 names segments hnames hlists⟩

end NameSet

end ModelExport
