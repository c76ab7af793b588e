/-!
# Blanks and parts of a text

The characters that Unicode calls white space, trimming by them, and
cutting a text at every occurrence of a character.
-/

namespace ModelExport

/-- Whether the character has the property White_Space. -/
def isBlank (c : Char) : Bool :=
  let n := c.toNat
  (9 ≤ n && n ≤ 13) || n = 0x20 || n = 0x85 || n = 0xa0 || n = 0x1680
    || (0x2000 ≤ n && n ≤ 0x200a) || n = 0x2028 || n = 0x2029 || n = 0x202f || n = 0x205f
    || n = 0x3000

theorem isBlank_of_isWhitespace {c : Char} (h : c.isWhitespace = true) : isBlank c = true := by
  simp only [Char.isWhitespace, Bool.or_eq_true, decide_eq_true_eq] at h
  rcases h with ((rfl | rfl) | rfl) | rfl <;> decide

/-- The characters without the blanks at both ends. -/
def trimBlanks (cs : List Char) : List Char :=
  ((cs.dropWhile isBlank).reverse.dropWhile isBlank).reverse

/-- The parts between the occurrences of the separator; there is always one. -/
def cutAt (separator : Char) : List Char → List (List Char)
  | [] => [[]]
  | c :: rest =>
      if c = separator then [] :: cutAt separator rest
      else
        match cutAt separator rest with
        | [] => [[c]]
        | part :: parts => (c :: part) :: parts

theorem cutAt_ne_nil (separator : Char) (cs : List Char) : cutAt separator cs ≠ [] := by
  induction cs with
  | nil => simp [cutAt]
  | cons c rest ih =>
      unfold cutAt
      split
      · simp
      · split <;> simp

/-- Joining the parts by the separator gives the text back. -/
theorem intercalate_cutAt (separator : Char) (cs : List Char) :
    [separator].intercalate (cutAt separator cs) = cs := by
  induction cs with
  | nil => rfl
  | cons c rest ih =>
      have hne := cutAt_ne_nil separator rest
      unfold cutAt
      split
      · next h =>
          obtain ⟨part, parts, hp⟩ := List.exists_cons_of_ne_nil hne
          rw [hp] at ih ⊢
          rw [List.intercalate_cons_cons, ih, h]
          rfl
      · obtain ⟨part, parts, hp⟩ := List.exists_cons_of_ne_nil hne
        rw [hp] at ih ⊢
        cases parts with
        | nil => simpa using ih
        | cons q qs =>
            rw [List.intercalate_cons_cons] at ih
            simp only [List.intercalate_cons_cons]
            rw [← ih]
            rfl

end ModelExport
