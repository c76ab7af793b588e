import ModelExport.Json.Printer
import ModelExport.Json.Reader

/-!
# Reading back strings and numbers

The reader goes over a text by single characters, so what it makes of a
piece of text is an equation between two readings of the rest
(`Scan.readFrom`): from the state in front of the piece and from the
state behind it. Each character of a string comes back from its escape,
and a numeral from its digits, up to the character that ends it.
-/

namespace ModelExport

/-! ## Digits -/

/-- The digits of a positive number start with one that is not zero. -/
theorem exists_digits_eq_cons {n : Nat} (h : 0 < n) :
    ∃ d rest, digits n = d :: rest ∧ d.val ≠ 0 := by
  have key : ∀ bound m, 0 < m → m < bound →
      ∃ d before, digitsUp bound m = before ++ [d] ∧ d.val ≠ 0 := by
    intro bound
    induction bound with
    | zero => omega
    | succ bound ih =>
        intro m hm hlt
        rw [digitsUp]
        split
        · next hsmall => exact ⟨⟨m, hsmall⟩, [], rfl, by simp; omega⟩
        · obtain ⟨d, before, heq, hd⟩ := ih (m / 10) (by omega) (by omega)
          exact ⟨d, _ :: before, by rw [heq, List.cons_append], hd⟩
  obtain ⟨d, before, heq, hd⟩ := key (n + 1) n h (Nat.lt_succ_self n)
  exact ⟨d, before.reverse, by rw [digits, heq, List.reverse_append]; rfl, hd⟩

namespace Json

open NumberScan (stepDigit)

/-! ## Reading on -/

namespace Scan

/-- What the reader makes of the rest of a text. -/
def readFrom (s : Scan) (cs : List Char) : Option Json := (cs.foldlM step s).bind finish?

theorem readFrom_nil (s : Scan) : s.readFrom [] = s.finish? := rfl

theorem readFrom_cons (s : Scan) (c : Char) (cs : List Char) :
    s.readFrom (c :: cs) = (s.step c).bind (·.readFrom cs) := by
  rw [readFrom, List.foldlM_cons]
  cases s.step c <;> rfl

theorem readFrom_of_step {s s' : Scan} {c : Char} (h : s.step c = some s') (cs : List Char) :
    s.readFrom (c :: cs) = s'.readFrom cs := by
  rw [readFrom_cons, h, Option.bind_some]

end Scan

/-! ## Strings -/

theorem hexDigit?_hexChar {n : Nat} (h : n < 16) : hexDigit? (hexChar n) = some n := by
  have hall : ∀ k : Fin 16, hexDigit? (hexChar k) = some k.val := by decide
  exact hall ⟨n, h⟩

namespace TextScan

/-- A string of which these characters have been read, latest first. -/
def plain (read : List Char) : TextScan := { read := some read }

theorem step_plain {read : List Char} {c : Char} (hescape : c ≠ '\\') (hcontrol : ¬ c.toNat < 32) :
    (plain read).step c = some (plain (c :: read)) := by
  simp [step, plain, push, hescape, hcontrol]

/-- A control character comes back from the four digits of its number. -/
theorem pushUnit_control {read : List Char} {c : Char} (h : c.toNat < 32) (escape : EscapeScan) :
    pushUnit { read := some read, escape } c.toNat = plain (c :: read) := by
  have hlow : ¬ (0xdc00 ≤ c.toNat ∧ c.toNat < 0xe000) := by omega
  have hhigh : ¬ (0xd800 ≤ c.toNat ∧ c.toNat < 0xdc00) := by omega
  simp [pushUnit, plain, hlow, hhigh]

end TextScan

namespace Scan

variable {frames : List Frame} {isKey : Bool} {read : List Char}

theorem readFrom_text_of_step {t t' : TextScan} {c : Char}
    (hclose : c ≠ '\x22' ∨ t.mayClose = false) (h : t.step c = some t') (cs : List Char) :
    readFrom ⟨.text isKey t, frames⟩ (c :: cs) = readFrom ⟨.text isKey t', frames⟩ cs := by
  apply readFrom_of_step
  have hopen : (t.mayClose && c = '\x22') = false := by
    rcases hclose with hc | ht
    · simp [hc]
    · simp [ht]
  simp [step, hopen, h]

theorem readFrom_shortEscape {c d : Char} (h : shortEscape? d = some c) (cs : List Char) :
    readFrom ⟨.text isKey (.plain read), frames⟩ ('\\' :: d :: cs)
      = readFrom ⟨.text isKey (.plain (c :: read)), frames⟩ cs := by
  have hd : d ≠ 'u' := by
    rintro rfl
    cases h
  have hfirst : (TextScan.plain read).step '\\'
      = some { read := some read, escape := .backslash } := rfl
  rw [readFrom_text_of_step (.inl (by decide)) hfirst]
  refine readFrom_text_of_step (.inr rfl) ?_ cs
  simp [TextScan.step, hd, h, TextScan.push, TextScan.plain]

/-- A control character is named by the last two digits of a unit. -/
theorem readFrom_controlEscape {c : Char} (h : c.toNat < 32) (cs : List Char) :
    readFrom ⟨.text isKey (.plain read), frames⟩ (controlEscape c ++ cs)
      = readFrom ⟨.text isKey (.plain (c :: read)), frames⟩ cs := by
  have hhead : readFrom ⟨.text isKey (.plain read), frames⟩ (controlEscape c ++ cs)
      = readFrom ⟨.text isKey { read := some read, escape := .unit 2 0 }, frames⟩
          (hexChar (c.toNat / 16) :: hexChar (c.toNat % 16) :: cs) := by
    rfl
  have hfirst : TextScan.step { read := some read, escape := .unit 2 0 } (hexChar (c.toNat / 16))
      = some { read := some read, escape := .unit 3 (c.toNat / 16) } := by
    simp [TextScan.step, hexDigit?_hexChar (show c.toNat / 16 < 16 by omega)]
  have hsecond : TextScan.step { read := some read, escape := .unit 3 (c.toNat / 16) }
      (hexChar (c.toNat % 16)) = some (.plain (c :: read)) := by
    have hvalue : 16 * (c.toNat / 16) + c.toNat % 16 = c.toNat := Nat.div_add_mod _ _
    simp [TextScan.step, hexDigit?_hexChar (Nat.mod_lt c.toNat (show 16 > 0 by decide)), hvalue,
      TextScan.pushUnit_control h]
  rw [hhead, readFrom_text_of_step (.inr rfl) hfirst, readFrom_text_of_step (.inr rfl) hsecond]

/-- Each character of a string comes back from its escape. -/
theorem readFrom_escapeChar (c : Char) (cs : List Char) :
    readFrom ⟨.text isKey (.plain read), frames⟩ (escapeChar c ++ cs)
      = readFrom ⟨.text isKey (.plain (c :: read)), frames⟩ cs := by
  rw [escapeChar]
  by_cases hquote : c = '\x22'
  · rw [if_pos hquote, hquote]
    exact readFrom_shortEscape rfl cs
  by_cases hback : c = '\\'
  · rw [if_neg hquote, if_pos hback, hback]
    exact readFrom_shortEscape rfl cs
  rw [if_neg hquote, if_neg hback]
  split
  · next hb => exact readFrom_shortEscape (by rw [hb]; rfl) cs
  split
  · next hf => exact readFrom_shortEscape (by rw [hf]; rfl) cs
  split
  · next hn => exact readFrom_shortEscape (by rw [hn]; rfl) cs
  split
  · next hr => exact readFrom_shortEscape (by rw [hr]; rfl) cs
  split
  · next ht => exact readFrom_shortEscape (by rw [ht]; rfl) cs
  split
  · next hcontrol => exact readFrom_controlEscape hcontrol cs
  · next hcontrol =>
      exact readFrom_text_of_step (.inl hquote) (TextScan.step_plain hback hcontrol) cs

theorem readFrom_escapeChars (s cs : List Char) :
    readFrom ⟨.text isKey (.plain read), frames⟩ (s.flatMap escapeChar ++ cs)
      = readFrom ⟨.text isKey (.plain (s.reverse ++ read)), frames⟩ cs := by
  induction s generalizing read with
  | nil => rfl
  | cons c s ih =>
      rw [List.flatMap_cons, List.append_assoc, readFrom_escapeChar, ih, List.reverse_cons,
        List.append_assoc]
      rfl

/-- A string is read up to its closing quote. Half of a surrogate pair is
left where a string has no text. -/
theorem readFrom_textChars {s : Scan} (h : s.step '\x22' = some ⟨.text isKey {}, frames⟩)
    (t : Text) (cs : List Char) :
    s.readFrom (textChars t ++ cs) = (closeText frames isKey t).bind (·.readFrom cs) := by
  cases t with
  | none =>
      rw [textChars, List.cons_append, readFrom_of_step h]
      exact readFrom_cons ⟨.text isKey { half := some 0xd800 }, frames⟩ '\x22' cs
  | some t =>
      have hclose : (Scan.mk (.text isKey (.plain (t.toList.reverse ++ []))) frames).step '\x22'
          = closeText frames isKey (some t) := by
        simp [step, TextScan.mayClose, TextScan.text, TextScan.plain]
      have hbody : s.readFrom (textChars (some t) ++ cs)
          = readFrom ⟨.text isKey (.plain []), frames⟩
              (t.toList.flatMap escapeChar ++ '\x22' :: cs) := by
        rw [textChars, List.append_assoc, List.cons_append, readFrom_of_step h]
        rfl
      rw [hbody, readFrom_escapeChars, readFrom_cons, hclose]

end Scan

/-! ## Numbers -/

/-- The characters of a number behind its sign. -/
def unsignedChars (n : Numeral) : List Char :=
  natChars n.whole ++ (if n.fraction.isEmpty then [] else '.' :: n.fraction.map Digit.toChar)
    ++ (match n.exponent with
        | some e => exponentChars e
        | none => [])

theorem numeralChars_eq (n : Numeral) :
    numeralChars n = (if n.negative then ['-'] else []) ++ unsignedChars n := by
  cases hexponent : n.exponent <;> simp [numeralChars, unsignedChars, hexponent]

namespace NumberScan

theorem step_toChar (n : NumberScan) (d : Digit) : n.step d.toChar = n.stepDigit d := by
  rw [step, Digit.ofChar?_toChar]

theorem foldlM_step_digits (n : NumberScan) (ds : List Digit) :
    (ds.map Digit.toChar).foldlM step n = ds.foldlM stepDigit n := by
  rw [List.foldlM_map]
  simp only [step_toChar]

theorem foldlM_whole (n : NumberScan) (whole : Nat) (ds : List Digit) :
    ds.foldlM stepDigit { n with part := .whole, whole }
      = some { n with part := .whole, whole := ds.foldl (fun w d => 10 * w + d.val) whole } := by
  induction ds generalizing whole with
  | nil => rfl
  | cons d ds ih => exact ih (10 * whole + d.val)

theorem foldlM_fraction (n : NumberScan) (read ds : List Digit) :
    ds.foldlM stepDigit { n with part := .fraction, fraction := read }
      = some { n with part := .fraction, fraction := ds.reverse ++ read } := by
  induction ds generalizing read with
  | nil => rfl
  | cons d ds ih =>
      rw [List.reverse_cons, List.append_assoc]
      exact ih (d :: read)

theorem foldlM_exponent (n : NumberScan) (exponent : Nat) (ds : List Digit) :
    ds.foldlM stepDigit { n with part := .exponent, exponent }
      = some { n with part := .exponent,
                      exponent := ds.foldl (fun w d => 10 * w + d.val) exponent } := by
  induction ds generalizing exponent with
  | nil => rfl
  | cons d ds ih => exact ih (10 * exponent + d.val)

/-- The scan when the digits in front of the point have been read. -/
def ofWhole (negative : Bool) (whole : Nat) : NumberScan :=
  { part := if whole = 0 then .zero else .whole, negative, whole }

theorem foldlM_natChars (negative : Bool) (n : Nat) :
    (natChars n).foldlM step { part := .minus, negative } = some (ofWhole negative n) := by
  rw [natChars, foldlM_step_digits]
  rcases Nat.eq_zero_or_pos n with rfl | hn
  · rfl
  · obtain ⟨d, rest, hds, hd⟩ := exists_digits_eq_cons hn
    have hstep : stepDigit { part := .minus, negative } d
        = some { ({ part := .minus, negative } : NumberScan) with
            part := .whole, whole := d.val } := by
      simp [stepDigit, hd]
    have hvalue : rest.foldl (fun w d => 10 * w + d.val) d.val = n := by
      have := ofDigits_digits n
      rwa [hds, ofDigits, List.foldl_cons, Nat.mul_zero, Nat.zero_add] at this
    rw [hds, List.foldlM_cons, hstep, Option.bind_eq_bind, Option.bind_some, foldlM_whole,
      hvalue, ofWhole, if_neg (by omega)]

theorem foldlM_point {n : NumberScan} (hpart : n.part = .zero ∨ n.part = .whole)
    (hnone : n.fraction = []) {ds : List Digit} (hds : ds ≠ []) :
    ('.' :: ds.map Digit.toChar).foldlM step n
      = some { n with part := .fraction, fraction := ds.reverse } := by
  obtain ⟨d, ds, rfl⟩ := List.exists_cons_of_ne_nil hds
  have hpoint : n.step '.' = some { n with part := .point } := by
    rcases hpart with h | h <;> simp [step, h, show Digit.ofChar? '.' = none by decide]
  have hfirst : stepDigit { n with part := .point } d
      = some { n with part := .fraction, fraction := [d] } := by
    simp [stepDigit, hnone]
  rw [List.foldlM_cons, hpoint, Option.bind_eq_bind, Option.bind_some, foldlM_step_digits,
    List.foldlM_cons, hfirst, Option.bind_eq_bind, Option.bind_some, foldlM_fraction,
    List.reverse_cons]

theorem foldlM_mark {n : NumberScan} (hpart : n.part = .zero ∨ n.part = .whole ∨ n.part = .fraction)
    (hnone : n.exponent = 0) (e : Int) :
    (exponentChars e).foldlM step n
      = some { n with part := .exponent, exponentNegative := e < 0, exponent := e.natAbs } := by
  have hmark : n.step 'e' = some { n with part := .mark } := by
    rcases hpart with h | h | h <;> simp [step, h, show Digit.ofChar? 'e' = none by decide]
  have hsign : step { n with part := .mark } (if e < 0 then '-' else '+')
      = some { n with part := .sign, exponentNegative := e < 0 } := by
    split
    · next h => simp [step, h, show Digit.ofChar? '-' = none by decide]
    · next h => simp [step, h, show Digit.ofChar? '+' = none by decide]
  obtain ⟨d, ds, hds⟩ := List.exists_cons_of_ne_nil (digits_ne_nil e.natAbs)
  have hfirst : stepDigit { n with part := .sign, exponentNegative := e < 0 } d
      = some { n with part := .exponent, exponentNegative := e < 0, exponent := d.val } := by
    simp [stepDigit, hnone]
  have hvalue : ds.foldl (fun w d => 10 * w + d.val) d.val = e.natAbs := by
    have := ofDigits_digits e.natAbs
    rwa [hds, ofDigits, List.foldl_cons, Nat.mul_zero, Nat.zero_add] at this
  rw [exponentChars, List.foldlM_cons, hmark, Option.bind_eq_bind, Option.bind_some,
    List.foldlM_cons, hsign, Option.bind_eq_bind, Option.bind_some, natChars, foldlM_step_digits,
    hds, List.foldlM_cons, hfirst, Option.bind_eq_bind, Option.bind_some]
  rw [foldlM_exponent { n with exponentNegative := e < 0 }, hvalue]

/-- The scan of the characters behind the sign stands for the number. -/
theorem exists_scan (n : Numeral) : ∃ s : NumberScan,
    (unsignedChars n).foldlM step { part := .minus, negative := n.negative } = some s
      ∧ s.numeral? = some n := by
  obtain ⟨negative, whole, fraction, exponent⟩ := n
  have hwhole : (ofWhole negative whole).part = .zero ∨ (ofWhole negative whole).part = .whole := by
    rw [ofWhole]
    split <;> simp
  -- the scan in front of the exponent
  obtain ⟨s, hs, hpart, hfields⟩ : ∃ s : NumberScan,
      (natChars whole ++ (if fraction.isEmpty then [] else '.' :: fraction.map Digit.toChar)).foldlM
        step { part := .minus, negative } = some s
      ∧ (s.part = .zero ∨ s.part = .whole ∨ s.part = .fraction)
      ∧ s.negative = negative ∧ s.whole = whole ∧ s.fraction = fraction.reverse
      ∧ s.exponent = 0 := by
    rw [List.foldlM_append, foldlM_natChars, Option.bind_eq_bind, Option.bind_some]
    cases fraction with
    | nil =>
        refine ⟨ofWhole negative whole, rfl, ?_, rfl, rfl, rfl, rfl⟩
        exact hwhole.imp_right .inl
    | cons d ds =>
        rw [List.isEmpty_cons, if_neg Bool.false_ne_true, foldlM_point hwhole rfl (by simp)]
        exact ⟨_, rfl, .inr (.inr rfl), rfl, rfl, rfl, rfl⟩
  obtain ⟨hnegative, hvalue, hfraction, hnone⟩ := hfields
  show ∃ s : NumberScan, List.foldlM step { part := .minus, negative }
      (natChars whole ++ (if fraction.isEmpty then [] else '.' :: fraction.map Digit.toChar)
        ++ (match exponent with
            | some e => exponentChars e
            | none => [])) = some s ∧ _
  rw [List.foldlM_append, hs, Option.bind_eq_bind, Option.bind_some]
  cases exponent with
  | none =>
      refine ⟨s, rfl, ?_⟩
      rcases hpart with h | h | h <;> simp [numeral?, h, hnegative, hvalue, hfraction]
  | some e =>
      refine ⟨_, foldlM_mark hpart hnone e, ?_⟩
      have hexponent : (if e < 0 then -(e.natAbs : Int) else e.natAbs) = e := by
        split <;> omega
      simp only [numeral?, decide_eq_true_eq, hexponent, hnegative, hvalue, hfraction,
        List.reverse_reverse]

end NumberScan

/-- A number that stands in front of the text ends there. -/
def Ends (after : List Char) : Prop := ∀ c ∈ after.head?, ∀ n : NumberScan, n.step c = none

theorem ends_nil : Ends [] := fun _ h => nomatch h

theorem ends_cons {c : Char} (hdigit : Digit.ofChar? c = none) (hpoint : c ≠ '.')
    (hmark : c ≠ 'e' ∧ c ≠ 'E') (hsign : c ≠ '+' ∧ c ≠ '-') (cs : List Char) : Ends (c :: cs) := by
  intro d hd n
  obtain rfl := Option.mem_some_iff.mp hd
  simp [NumberScan.step, hdigit, hpoint, hmark, hsign]

namespace Scan

variable {frames : List Frame}

theorem readFrom_number {n n' : NumberScan} {cs : List Char}
    (h : cs.foldlM NumberScan.step n = some n') (after : List Char) :
    readFrom ⟨.number n, frames⟩ (cs ++ after) = readFrom ⟨.number n', frames⟩ after := by
  induction cs generalizing n with
  | nil =>
      obtain rfl := Option.some.inj h
      rfl
  | cons c cs ih =>
      rw [List.foldlM_cons] at h
      obtain ⟨m, hm, h⟩ := Option.bind_eq_some_iff.mp h
      have hstep : step ⟨.number n, frames⟩ c = some ⟨.number m, frames⟩ := by
        simp only [step, hm]
      rw [List.cons_append, readFrom_of_step hstep, ih h]

theorem readFrom_end {n : NumberScan} {numeral : Numeral} (hn : n.numeral? = some numeral)
    {after : List Char} (h : Ends after) :
    readFrom ⟨.number n, frames⟩ after
      = (close frames (.num numeral)).bind (·.readFrom after) := by
  cases after with
  | nil =>
      cases frames with
      | nil => simp [readFrom_nil, finish?, close, hn]
      | cons frame frames => cases frame <;> rfl
  | cons c cs =>
      have hstep : step ⟨.number n, frames⟩ c
          = (close frames (.num numeral)).bind fun s => stepBetween s.phase s.frames c := by
        simp only [step, h c rfl n, hn, Option.bind_eq_bind, Option.bind_some]
      rw [readFrom_cons, hstep, Option.bind_assoc]
      cases hclose : close frames (.num numeral) with
      | none => rfl
      | some s =>
          have hnext : s.step c = stepBetween s.phase s.frames c := by
            cases frames with
            | nil =>
                obtain rfl := Option.some.inj hclose
                rfl
            | cons frame frames =>
                cases frame with
                | array items =>
                    obtain rfl := Option.some.inj hclose
                    rfl
                | member fields key =>
                    obtain rfl := Option.some.inj hclose
                    rfl
                | object fields => cases hclose
          rw [Option.bind_some, Option.bind_some, readFrom_cons, hnext]

/-- Where a value may start, a digit starts a number. -/
theorem step_value_digit (mayClose : Bool) (d : Digit) :
    step ⟨.value mayClose, frames⟩ d.toChar
      = step ⟨.number { part := .minus }, frames⟩ d.toChar := by
  have hother : ∀ d : Digit, isBlank d.toChar = false
      ∧ d.toChar ∉ [']', '\x22', '[', '\x7b', 't', 'f', 'n', '-'] := by
    decide
  obtain ⟨hblank, hchar⟩ := hother d
  simp only [List.mem_cons, List.not_mem_nil, or_false, not_or] at hchar
  simp [step, stepBetween, open?, NumberScan.start?, hblank, hchar, NumberScan.step_toChar,
    Digit.ofChar?_toChar, NumberScan.stepDigit]

/-- A number is read where a value may start, if the text behind it ends it. -/
theorem readFrom_numeralChars {mayClose : Bool} (n : Numeral) {after : List Char}
    (h : Ends after) :
    readFrom ⟨.value mayClose, frames⟩ (numeralChars n ++ after)
      = (close frames (.num n)).bind (·.readFrom after) := by
  obtain ⟨s, hs, hnumeral⟩ := NumberScan.exists_scan n
  have hstart : readFrom ⟨.value mayClose, frames⟩ (numeralChars n ++ after)
      = readFrom ⟨.number { part := .minus, negative := n.negative }, frames⟩
          (unsignedChars n ++ after) := by
    rw [numeralChars_eq, List.append_assoc]
    cases hnegative : n.negative with
    | true => exact readFrom_of_step (by cases mayClose <;> rfl) _
    | false =>
        obtain ⟨d, ds, hds⟩ := List.exists_cons_of_ne_nil (digits_ne_nil n.whole)
        have hcons : ∃ cs, unsignedChars n ++ after = d.toChar :: cs := by
          rw [unsignedChars, natChars, hds]
          exact ⟨_, rfl⟩
        obtain ⟨cs, hcs⟩ := hcons
        rw [if_neg Bool.false_ne_true, List.nil_append, hcs, readFrom_cons, readFrom_cons,
          step_value_digit]
  rw [hstart, readFrom_number hs, readFrom_end hnumeral h]

end Scan

end Json

end ModelExport
