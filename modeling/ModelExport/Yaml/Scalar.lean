import ModelExport.Json.Reader
import ModelExport.Yaml.Cursor

/-!
# Scalars

Plain and quoted scalars may go over several lines. A single line break
inside one is a blank, further ones are kept, and the blanks around line
breaks are dropped.
-/

namespace ModelExport

namespace Yaml

/-- A scalar that has been read in part. -/
structure ScalarScan where
  /-- The characters, latest first. -/
  read : List Char := []
  /-- The blanks since then, latest first. -/
  spaces : List Char := []
  /-- The line breaks since then. -/
  breaks : Nat := 0
  /-- A line break was escaped, so the blanks that follow are dropped. -/
  joined : Bool := false

namespace ScalarScan

/-- What stands for the blanks and line breaks since the latest character, latest first. -/
def gap (s : ScalarScan) : List Char :=
  if s.breaks = 0 then s.spaces
  else if s.breaks = 1 then (if s.joined then ['\n'] else [' '])
  else List.replicate (if s.joined then s.breaks else s.breaks - 1) '\n'

/-- Goes on by a character of the scalar. -/
def push (s : ScalarScan) (c : Char) : ScalarScan := { read := c :: s.gap ++ s.read }

def pushSpace (s : ScalarScan) (c : Char) : ScalarScan :=
  if s.breaks = 0 ∧ !s.joined then { s with spaces := c :: s.spaces } else s

def pushBreak (s : ScalarScan) : ScalarScan :=
  { s with spaces := [], breaks := s.breaks + 1 }

/-- Goes on after an escaped line break. -/
def join (s : ScalarScan) : ScalarScan := { read := s.gap ++ s.read, joined := true }

def isInGap (s : ScalarScan) : Bool := s.breaks ≠ 0 || !s.spaces.isEmpty

/-- The text of a plain scalar, which ends with its latest character. -/
def plainText (s : ScalarScan) : String := String.ofList s.read.reverse

/-- The text of a quoted scalar, which ends with its closing quote. -/
def quotedText (s : ScalarScan) : String := String.ofList (s.gap ++ s.read).reverse

end ScalarScan

/-! ## Plain scalars -/

def isFlowIndicator (c : Char) : Bool :=
  c = ',' || c = '[' || c = ']' || c = '\x7b' || c = '\x7d'

/-- Whether a plain scalar can start with the character, given what follows it. -/
def startsPlain (inFlow : Bool) (c : Char) (rest : List Char) : Bool :=
  if c = '-' then !atGap rest
  else if c = '?' || c = ':' then !inFlow && !atGap rest
  else
    !(isSpace c || c = '\n' || isFlowIndicator c || c = '#' || c = '&' || c = '*' || c = '!'
      || c = '|' || c = '>' || c = '\x27' || c = '\x22' || c = '%' || c = '@' || c = '\x60')

/-- Whether the line at the cursor no longer belongs to a block scalar that
has to be right of the indent. -/
def leavesBlock (inFlow : Bool) (indent : Option Nat) (c : Cursor) : Bool :=
  !inFlow && indent.any (c.column ≤ ·)

/-- Whether a plain scalar ends in front of the character at the cursor. -/
def endsPlain (inFlow : Bool) (indent : Option Nat) (c : Cursor) (s : ScalarScan) : Bool :=
  (s.breaks ≠ 0 && (leavesBlock inFlow indent c || c.isAtMark))
    || c.isAtColon
    || match c.rest with
      | '#' :: _ => s.isInGap
      | ch :: _ => inFlow && isFlowIndicator ch
      | [] => true

/-- Whether a colon at the cursor would have to be followed by a blank. -/
def isStrayColon (inFlow : Bool) (c : Cursor) : Bool :=
  match c.rest with
  | ':' :: d :: _ => inFlow && (isFlowIndicator d || d = '?')
  | _ => false

/-- Reads a plain scalar. In a block it goes on to lines that are indented
deeper than the given column; none stands for the margin. -/
def scanPlain (inFlow : Bool) (indent : Option Nat) :
    List Char → Nat → Nat → ScalarScan → Option (String × Cursor)
  | [], line, column, s => some (s.plainText, ⟨[], line, column⟩)
  | c :: rest, line, column, s =>
      if c = '\n' then scanPlain inFlow indent rest (line + 1) 0 s.pushBreak
      else if isSpace c then
        if c = '\t' ∧ s.breaks ≠ 0 ∧ leavesBlock inFlow indent ⟨c :: rest, line, column⟩ then none
        else scanPlain inFlow indent rest line (column + 1) (s.pushSpace c)
      else if endsPlain inFlow indent ⟨c :: rest, line, column⟩ s then
        some (s.plainText, ⟨c :: rest, line, column⟩)
      else if isStrayColon inFlow ⟨c :: rest, line, column⟩ then none
      else scanPlain inFlow indent rest line (column + 1) (s.push c)

/-! ## Quoted scalars -/

/-- Reads a scalar in single quotes from behind the opening one. A quote is written twice. -/
def scanSingle : List Char → Nat → Nat → ScalarScan → Option (String × Cursor)
  | [], _, _, _ => none
  | '\x27' :: '\x27' :: rest, line, column, s => scanSingle rest line (column + 2) (s.push '\x27')
  | c :: rest, line, column, s =>
      if c = '\x27' then some (s.quotedText, ⟨rest, line, column + 1⟩)
      else if c = '\n' then scanSingle rest (line + 1) 0 s.pushBreak
      else if isSpace c then scanSingle rest line (column + 1) (s.pushSpace c)
      else if (Cursor.mk (c :: rest) line column).isAtMark then none
      else scanSingle rest line (column + 1) (s.push c)

/-- The character that a one-letter escape stands for. -/
def shortEscape? (c : Char) : Option Char :=
  match c with
  | '0' => some '\x00'
  | 'a' => some '\x07'
  | 'b' => some '\x08'
  | 't' => some '\t'
  | '\t' => some '\t'
  | 'n' => some '\n'
  | 'v' => some '\x0b'
  | 'f' => some '\x0c'
  | 'r' => some '\r'
  | 'e' => some '\x1b'
  | ' ' => some ' '
  | '\x22' => some '\x22'
  | '/' => some '/'
  | '\\' => some '\\'
  | 'N' => some (Char.ofNat 0x85)
  | '_' => some (Char.ofNat 0xa0)
  | 'L' => some (Char.ofNat 0x2028)
  | 'P' => some (Char.ofNat 0x2029)
  | _ => none

/-- How many hexadecimal digits follow the letter of an escape. -/
def escapeWidth? (c : Char) : Option Nat :=
  match c with
  | 'x' => some 2
  | 'u' => some 4
  | 'U' => some 8
  | _ => none

/-- The character of the number, if there is one. -/
def charOfNat? (n : Nat) : Option Char :=
  if n.isValidChar then some (Char.ofNat n) else none

/-- What has been read of an escape. -/
inductive EscapeScan where
  | outside
  | backslash
  /-- So many digits are still to come behind this value. -/
  | digits (count value : Nat)

/-- Reads a scalar in double quotes from behind the opening one. -/
def scanDouble : List Char → Nat → Nat → EscapeScan → ScalarScan → Option (String × Cursor)
  | [], _, _, _, _ => none
  | c :: rest, line, column, .outside, s =>
      if c = '\x22' then some (s.quotedText, ⟨rest, line, column + 1⟩)
      else if c = '\\' then scanDouble rest line (column + 1) .backslash s
      else if c = '\n' then scanDouble rest (line + 1) 0 .outside s.pushBreak
      else if isSpace c then scanDouble rest line (column + 1) .outside (s.pushSpace c)
      else if (Cursor.mk (c :: rest) line column).isAtMark then none
      else scanDouble rest line (column + 1) .outside (s.push c)
  | c :: rest, line, column, .backslash, s =>
      if c = '\n' then scanDouble rest (line + 1) 0 .outside s.join
      else
        match escapeWidth? c, shortEscape? c with
        | some width, _ => scanDouble rest line (column + 1) (.digits width 0) s
        | none, some d => scanDouble rest line (column + 1) .outside (s.push d)
        | none, none => none
  | c :: rest, line, column, .digits count value, s =>
      match Json.hexDigit? c with
      | none => none
      | some d =>
          if count ≤ 1 then
            match charOfNat? (16 * value + d) with
            | some ch => scanDouble rest line (column + 1) .outside (s.push ch)
            | none => none
          else scanDouble rest line (column + 1) (.digits (count - 1) (16 * value + d)) s

end Yaml

end ModelExport
