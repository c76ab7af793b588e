/-!
# Positions in a YAML text

What is read of YAML: block and flow collections, plain and quoted
scalars, comments and the marks around a document. Anchors, tags, block
scalars, explicit keys and directives are refused.

A `Cursor` is what is left of a text with the line and the column where
it starts, since the structure of a block is in its columns.
-/

namespace ModelExport

/-- A YAML node. -/
inductive Yaml where
  /-- A scalar, plain or in quotes. A node that is left out is plain and empty. -/
  | scalar (text : String) (plain : Bool)
  | list (items : List Yaml)
  | map (entries : List (Yaml × Yaml))

namespace Yaml

/-- A node that is left out. -/
def missing : Yaml := .scalar "" true

/-- Every line break as one character, and no other control character but the tab. -/
def normalize? : List Char → Option (List Char)
  | [] => some []
  | '\r' :: '\n' :: rest => (normalize? rest).map ('\n' :: ·)
  | c :: rest =>
      let n := c.toNat
      if c = '\r' ∨ n = 0x85 ∨ n = 0x2028 ∨ n = 0x2029 then (normalize? rest).map ('\n' :: ·)
      else if (n < 0x20 ∧ c ≠ '\t' ∧ c ≠ '\n') ∨ (0x7f ≤ n ∧ n < 0xa0) ∨ n = 0xfeff ∨ n = 0xfffe
          ∨ n = 0xffff then
        none
      else (normalize? rest).map (c :: ·)

/-- A place in a text. -/
structure Cursor where
  rest : List Char
  line : Nat := 0
  column : Nat := 0

def isSpace (c : Char) : Bool := c = ' ' || c = '\t'

/-- Whether a blank or the end of the text comes next. -/
def atGap (rest : List Char) : Bool :=
  match rest with
  | [] => true
  | c :: _ => isSpace c || c = '\n'

namespace Cursor

/-- The place behind the next character. -/
def next (c : Cursor) : Cursor :=
  match c.rest with
  | [] => c
  | ch :: rest =>
      if ch = '\n' then ⟨rest, c.line + 1, 0⟩ else ⟨rest, c.line, c.column + 1⟩

def isAtEnd (c : Cursor) : Bool := c.rest.isEmpty

/-- Goes over blanks, comments and line breaks. Tabs count as blanks in a
flow collection, and elsewhere only where no block can start. -/
def skipFrom (inFlow : Bool) : List Char → Nat → Nat → Bool → Bool → Cursor
  | [], line, column, _, _ => ⟨[], line, column⟩
  | ch :: rest, line, column, tabs, comment =>
      if ch = '\n' then skipFrom inFlow rest (line + 1) 0 inFlow false
      else if comment || ch = ' ' || (tabs && ch = '\t') then
        skipFrom inFlow rest line (column + 1) tabs comment
      else if ch = '#' then skipFrom inFlow rest line (column + 1) tabs true
      else ⟨ch :: rest, line, column⟩

/-- The next character of a block, where tabs are blanks or not. -/
def skip (c : Cursor) (tabs : Bool) : Cursor := skipFrom false c.rest c.line c.column tabs false

/-- The next character of a flow collection. -/
def skipFlow (c : Cursor) : Cursor := skipFrom true c.rest c.line c.column true false

/-- The next character of the line that is no blank. -/
def skipSpaces (c : Cursor) : Cursor :=
  let spaces := c.rest.takeWhile isSpace
  ⟨c.rest.dropWhile isSpace, c.line, c.column + spaces.length⟩

/-- Whether an item of a block sequence starts here. -/
def isAtDash (c : Cursor) : Bool :=
  match c.rest with
  | '-' :: rest => atGap rest
  | _ => false

/-- Whether the colon between a key and its value is here. -/
def isAtColon (c : Cursor) : Bool :=
  match c.rest with
  | ':' :: rest => atGap rest
  | _ => false

def isAtDocumentStart (c : Cursor) : Bool :=
  match c.rest with
  | '-' :: '-' :: '-' :: rest => c.column = 0 && atGap rest
  | _ => false

def isAtDocumentEnd (c : Cursor) : Bool :=
  match c.rest with
  | '.' :: '.' :: '.' :: rest => c.column = 0 && atGap rest
  | _ => false

/-- Whether the mark before or after a document is here. -/
def isAtMark (c : Cursor) : Bool := c.isAtDocumentStart || c.isAtDocumentEnd

end Cursor

end Yaml

end ModelExport
