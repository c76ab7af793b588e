import ModelExport.Json.Basic

/-!
# Reading JSON

The reader goes over the text once, character by character. Its state is
what may come next together with the containers that are open, innermost
first. A number ends at the first character that cannot continue it, and
that character is then read as one that follows a value. The syntax is
strict: four kinds of blank, no control characters in strings, no zeros
in front of a number, nothing after the value.
-/

namespace ModelExport

namespace Json

/-! ## Strings -/

/-- Where the reader is between a backslash and the end of the escape. -/
inductive EscapeScan where
  | outside
  | backslash
  /-- So many hexadecimal digits of a unit have been read, with this value. -/
  | unit (count value : Nat)

/-- A string that has been read in part. -/
structure TextScan where
  /-- The characters, latest first, unless half of a pair stood alone. -/
  read : Option (List Char) := some []
  /-- The first half of a pair, when the second has to follow. -/
  half : Option Nat := none
  escape : EscapeScan := .outside

namespace TextScan

/-- Goes on after a character that stands for itself. -/
def push (t : TextScan) (c : Char) : TextScan :=
  { read := if t.half.isSome then none else t.read.map (c :: ·) }

/-- Goes on after a unit that was named by an escape. -/
def pushUnit (t : TextScan) (u : Nat) : TextScan :=
  let low := 0xdc00 ≤ u ∧ u < 0xe000
  match t.half with
  | some h =>
      { read :=
          if low then
            t.read.map (Char.ofNat (0x10000 + (h - 0xd800) * 0x400 + (u - 0xdc00)) :: ·)
          else none }
  | none =>
      if 0xd800 ≤ u ∧ u < 0xdc00 then { t with half := some u, escape := .outside }
      else if low then { read := none }
      else { read := t.read.map (Char.ofNat u :: ·) }

/-- The text when the closing quote has been read. -/
def text (t : TextScan) : Json.Text :=
  if t.half.isSome then none else t.read.map fun cs => String.ofList cs.reverse

end TextScan

/-- The character that a one-letter escape stands for. -/
def shortEscape? (c : Char) : Option Char :=
  if c = '\x22' then some '\x22'
  else if c = '\\' then some '\\'
  else if c = '/' then some '/'
  else if c = 'b' then some '\x08'
  else if c = 'f' then some '\x0c'
  else if c = 'n' then some '\n'
  else if c = 'r' then some '\r'
  else if c = 't' then some '\t'
  else none

def hexDigit? (c : Char) : Option Nat :=
  let n := c.toNat
  if 48 ≤ n ∧ n < 58 then some (n - 48)
  else if 97 ≤ n ∧ n < 103 then some (n - 87)
  else if 65 ≤ n ∧ n < 71 then some (n - 55)
  else none

namespace TextScan

/-- Goes on by one character that is not the closing quote. -/
def step (t : TextScan) (c : Char) : Option TextScan :=
  match t.escape with
  | .outside =>
      if c = '\\' then some { t with escape := .backslash }
      else if c.toNat < 32 then none
      else some (t.push c)
  | .backslash =>
      if c = 'u' then some { t with escape := .unit 0 0 }
      else (shortEscape? c).map t.push
  | .unit count value => do
      let d ← hexDigit? c
      let value := 16 * value + d
      return if count < 3 then { t with escape := .unit (count + 1) value } else t.pushUnit value

/-- Whether a quote would close the string here. -/
def mayClose (t : TextScan) : Bool :=
  match t.escape with
  | .outside => true
  | _ => false

end TextScan

/-! ## Numbers -/

/-- What part of a number has been read last. -/
inductive NumberPart where
  | minus | zero | whole | point | fraction | mark | sign | exponent
  deriving DecidableEq

/-- A number that has been read in part. -/
structure NumberScan where
  part : NumberPart
  negative : Bool := false
  whole : Nat := 0
  /-- The digits behind the point, latest first. -/
  fraction : List Digit := []
  exponentNegative : Bool := false
  exponent : Nat := 0

namespace NumberScan

/-- Goes on by a digit. -/
def stepDigit (n : NumberScan) (d : Digit) : Option NumberScan :=
  match n.part with
  | .minus => some { n with part := if d.val = 0 then .zero else .whole, whole := d.val }
  | .zero => none
  | .whole => some { n with whole := 10 * n.whole + d.val }
  | .point | .fraction => some { n with part := .fraction, fraction := d :: n.fraction }
  | .mark | .sign | .exponent =>
      some { n with part := .exponent, exponent := 10 * n.exponent + d.val }

/-- Goes on by a character, if it continues the number. -/
def step (n : NumberScan) (c : Char) : Option NumberScan :=
  match Digit.ofChar? c with
  | some d => n.stepDigit d
  | none =>
      if c = '.' then
        match n.part with
        | .zero | .whole => some { n with part := .point }
        | _ => none
      else if c = 'e' ∨ c = 'E' then
        match n.part with
        | .zero | .whole | .fraction => some { n with part := .mark }
        | _ => none
      else if c = '+' ∨ c = '-' then
        match n.part with
        | .mark => some { n with part := .sign, exponentNegative := c = '-' }
        | _ => none
      else none

/-- The number, if it may end here. -/
def numeral? (n : NumberScan) : Option Numeral :=
  let numeral : Numeral :=
    { negative := n.negative, whole := n.whole, fraction := n.fraction.reverse }
  match n.part with
  | .zero | .whole | .fraction => some numeral
  | .exponent =>
      some { numeral with
        exponent := some (if n.exponentNegative then -(n.exponent : Int) else n.exponent) }
  | _ => none

/-- The number that starts with the character. -/
def start? (c : Char) : Option NumberScan :=
  if c = '-' then some { part := .minus, negative := true }
  else (Digit.ofChar? c).bind { part := .minus : NumberScan }.stepDigit

end NumberScan

/-! ## Trees -/

/-- A container that is open. -/
inductive Frame where
  /-- An array with its items so far, latest first. -/
  | array (items : List Json)
  /-- An object between two fields, latest first. -/
  | object (fields : List (Json.Text × Json))
  /-- An object whose latest key waits for its value. -/
  | member (fields : List (Json.Text × Json)) (key : Json.Text)

/-- What may come next. -/
inductive Phase where
  /-- A value, or at the start of an array its end. -/
  | value (mayClose : Bool)
  /-- A key, or at the start of an object its end. -/
  | key (mayClose : Bool)
  /-- A colon. -/
  | colon
  /-- A comma or the end of the innermost container. -/
  | next
  | text (isKey : Bool) (t : TextScan)
  | number (n : NumberScan)
  /-- The rest of a word that stands for the value. -/
  | word (rest : List Char) (j : Json)
  /-- Nothing but blanks. -/
  | done (j : Json)

/-- The state of the reader. -/
structure Scan where
  phase : Phase := .value false
  frames : List Frame := []

namespace Scan

/-- Goes on after a value has ended. -/
def close (frames : List Frame) (j : Json) : Option Scan :=
  match frames with
  | [] => some ⟨.done j, []⟩
  | .array items :: frames => some ⟨.next, .array (j :: items) :: frames⟩
  | .member fields key :: frames => some ⟨.next, .object ((key, j) :: fields) :: frames⟩
  | .object _ :: _ => none

/-- Goes on after a string has ended. -/
def closeText (frames : List Frame) (isKey : Bool) (s : Json.Text) : Option Scan :=
  if isKey then
    match frames with
    | .object fields :: frames => some ⟨.colon, .member fields s :: frames⟩
    | _ => none
  else close frames (.str s)

/-- Starts a value. -/
def open? (frames : List Frame) (c : Char) : Option Scan :=
  if c = '\x22' then some ⟨.text false {}, frames⟩
  else if c = '[' then some ⟨.value true, .array [] :: frames⟩
  else if c = '\x7b' then some ⟨.key true, .object [] :: frames⟩
  else if c = 't' then some ⟨.word ['r', 'u', 'e'] (.bool true), frames⟩
  else if c = 'f' then some ⟨.word ['a', 'l', 's', 'e'] (.bool false), frames⟩
  else if c = 'n' then some ⟨.word ['u', 'l', 'l'] .null, frames⟩
  else (NumberScan.start? c).map fun n => ⟨.number n, frames⟩

/-- Ends the innermost container by its bracket. -/
def closeFrame (frames : List Frame) (c : Char) : Option Scan :=
  match frames with
  | .array items :: frames => if c = ']' then close frames (.arr items.reverse) else none
  | .object fields :: frames => if c = '\x7d' then close frames (.obj fields.reverse) else none
  | _ => none

/-- Goes on after a comma. -/
def comma (frames : List Frame) : Option Scan :=
  match frames with
  | .array _ :: _ => some ⟨.value false, frames⟩
  | .object _ :: _ => some ⟨.key false, frames⟩
  | _ => none

def isBlank (c : Char) : Bool := c = ' ' || c = '\n' || c = '\r' || c = '\t'

/-- Goes on by a character where no string, number or word is open. -/
def stepBetween (phase : Phase) (frames : List Frame) (c : Char) : Option Scan :=
  if isBlank c then some ⟨phase, frames⟩
  else
    match phase with
    | .value mayClose =>
        if mayClose && c = ']' then closeFrame frames c else open? frames c
    | .key mayClose =>
        if c = '\x22' then some ⟨.text true {}, frames⟩
        else if mayClose then closeFrame frames c
        else none
    | .colon => if c = ':' then some ⟨.value false, frames⟩ else none
    | .next => if c = ',' then comma frames else closeFrame frames c
    | _ => none

/-- Goes on by a character. -/
def step (s : Scan) (c : Char) : Option Scan :=
  match s.phase with
  | .text isKey t =>
      if t.mayClose && c = '\x22' then closeText s.frames isKey t.text
      else (t.step c).map fun t => ⟨.text isKey t, s.frames⟩
  | .word rest j =>
      match rest with
      | [] => none
      | [d] => if c = d then close s.frames j else none
      | d :: rest => if c = d then some ⟨.word rest j, s.frames⟩ else none
  | .number n =>
      match n.step c with
      | some n => some ⟨.number n, s.frames⟩
      | none => do
          let numeral ← n.numeral?
          let s ← close s.frames (.num numeral)
          stepBetween s.phase s.frames c
  | phase => stepBetween phase s.frames c

/-- The tree, if the text may end here. -/
def finish? (s : Scan) : Option Json :=
  match s.frames, s.phase with
  | [], .done j => some j
  | [], .number n => n.numeral?.map .num
  | _, _ => none

end Scan

/-- The tree of the whole text, if it is one. -/
def ofChars? (cs : List Char) : Option Json := do
  let s ← cs.foldlM Scan.step {}
  s.finish?

def parse? (text : String) : Option Json := ofChars? text.toList

end Json

end ModelExport
