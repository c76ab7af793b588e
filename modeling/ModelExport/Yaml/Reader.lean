import ModelExport.Yaml.Scalar

/-!
# Reading YAML

A recursion over blocks and flow collections. A block belongs to the
column where it starts: its entries start in that column, what belongs to
an entry stands further right, and a sequence that is the value of a key
may stand in the column of the key. Every call goes on by at least one
character in three, which bounds the depth by the length of the text.
-/

namespace ModelExport

namespace Yaml

/-- A scalar at the cursor; in a block its further lines are right of the indent. -/
def scalarAt (inFlow : Bool) (indent : Option Nat) (c : Cursor) : Option (Yaml × Cursor) :=
  match c.rest with
  | [] => none
  | ch :: rest =>
      if ch = '\x22' then
        (scanDouble rest c.line (c.column + 1) .outside {}).map fun r => (.scalar r.1 false, r.2)
      else if ch = '\x27' then
        (scanSingle rest c.line (c.column + 1) {}).map fun r => (.scalar r.1 false, r.2)
      else if startsPlain inFlow ch rest then
        (scanPlain inFlow indent c.rest c.line c.column {}).map fun r => (.scalar r.1 true, r.2)
      else none

/-! ## Flow collections -/

mutual

/-- A node of a flow collection. -/
def flowNode : Nat → Cursor → Option (Yaml × Cursor)
  | 0, _ => none
  | bound + 1, c =>
      match c.rest with
      | '[' :: _ => flowItems bound c.next []
      | '\x7b' :: _ => flowEntries bound c.next []
      | _ => scalarAt true none c

/-- The value behind a key of a flow collection, which may be left out. -/
def flowValue : Nat → Cursor → Option (Yaml × Cursor)
  | 0, _ => none
  | bound + 1, c =>
      match c.rest with
      | [] => none
      | ch :: _ =>
          if ch = ',' ∨ ch = ']' ∨ ch = '\x7d' then some (.missing, c) else flowNode bound c

/-- The items up to the closing bracket. A pair among them is a map of its own. -/
def flowItems : Nat → Cursor → List Yaml → Option (Yaml × Cursor)
  | 0, _, _ => none
  | bound + 1, c, items => do
      let c := c.skipFlow
      match c.rest with
      | ']' :: _ => return (.list items.reverse, c.next)
      | _ => do
          let (item, after) ← flowNode bound c
          let c := after.skipFlow
          let (item, c) ←
            match c.rest with
            | ':' :: _ => do
                let (value, after) ← flowValue bound c.next.skipFlow
                pure (Yaml.map [(item, value)], after.skipFlow)
            | _ => pure (item, c)
          match c.rest with
          | ',' :: _ => flowItems bound c.next (item :: items)
          | ']' :: _ => return (.list (item :: items).reverse, c.next)
          | _ => none

/-- The entries up to the closing brace. -/
def flowEntries : Nat → Cursor → List (Yaml × Yaml) → Option (Yaml × Cursor)
  | 0, _, _ => none
  | bound + 1, c, entries => do
      let c := c.skipFlow
      match c.rest with
      | '\x7d' :: _ => return (.map entries.reverse, c.next)
      | _ => do
          let (key, after) ← flowNode bound c
          let c := after.skipFlow
          let (value, c) ←
            match c.rest with
            | ':' :: _ => do
                let (value, after) ← flowValue bound c.next.skipFlow
                pure (value, after.skipFlow)
            | _ => pure (missing, c)
          match c.rest with
          | ',' :: _ => flowEntries bound c.next ((key, value) :: entries)
          | '\x7d' :: _ => return (.map ((key, value) :: entries).reverse, c.next)
          | _ => none

end

/-! ## Blocks -/

/-- A scalar or a flow collection in a block. -/
def inlineNode (bound : Nat) (indent : Option Nat) (c : Cursor) : Option (Yaml × Cursor) :=
  match c.rest with
  | '[' :: _ | '\x7b' :: _ => flowNode bound c
  | _ => scalarAt false indent c

mutual

/-- A node that starts at the cursor, below a block in the column of the
indent. Where `blocks` says so it may be a block itself. -/
def blockNode : Nat → Option Nat → Bool → Cursor → Option (Yaml × Cursor)
  | 0, _, _, _ => none
  | bound + 1, indent, blocks, c =>
      if c.isAtDash then
        if blocks then blockItems bound c.column c [] else none
      else do
        let (node, after) ← inlineNode bound indent c
        let colon := after.skipSpaces
        if colon.isAtColon ∧ colon.line = c.line then
          if blocks then blockEntries bound c.column c [] else none
        else return (node, after)

/-- The items of a sequence in the column, from the dash at the cursor on. -/
def blockItems : Nat → Nat → Cursor → List Yaml → Option (Yaml × Cursor)
  | 0, _, _, _ => none
  | bound + 1, column, c, items => do
      let start := c.next.skip false
      let (item, after) ←
        if !start.isAtEnd ∧ (start.line = c.line ∨ column < start.column) then
          blockNode bound (some column) true start
        else pure (missing, start)
      let next := after.skip true
      if next.isAtEnd ∨ next.isAtMark ∨ next.column < column then
        return (.list (item :: items).reverse, next)
      else if next.column = column then
        if next.isAtDash then blockItems bound column next (item :: items)
        else return (.list (item :: items).reverse, next)
      else none

/-- The entries of a map in the column, from the key at the cursor on. -/
def blockEntries : Nat → Nat → Cursor → List (Yaml × Yaml) → Option (Yaml × Cursor)
  | 0, _, _, _ => none
  | bound + 1, column, c, entries => do
      let (key, after) ← inlineNode bound (some column) c
      let colon := after.skipSpaces
      if colon.isAtColon ∧ colon.line = c.line then
        let start := colon.next.skip true
        let (value, after) ←
          if start.isAtEnd then pure (missing, start)
          else if start.line = colon.line then blockNode bound (some column) false start
          else if column < start.column then blockNode bound (some column) true start
          else if start.column = column ∧ start.isAtDash ∧ !start.isAtMark then
            blockItems bound column start []
          else pure (missing, start)
        let next := after.skip true
        if next.isAtEnd ∨ next.isAtMark ∨ next.column < column then
          return (.map ((key, value) :: entries).reverse, next)
        else if next.column = column then
          blockEntries bound column next ((key, value) :: entries)
        else none
      else none

end

/-! ## Documents -/

/-- Goes over the marks behind a document, at most as many as the bound says. -/
def skipEnds : Nat → Cursor → Cursor
  | 0, c => c
  | bound + 1, c =>
      if c.isAtDocumentEnd then skipEnds bound (c.next.next.next.skip false) else c

/-- The root of the only document of the text. -/
def parse? (text : String) : Option Yaml := do
  let chars := text.toList
  let chars ← normalize? (if chars.head? = some (Char.ofNat 0xfeff) then chars.tail else chars)
  let bound := 3 * chars.length + 8
  let start := skipEnds bound ((Cursor.mk chars 0 0).skip false)
  let marked := start.isAtDocumentStart
  let c := if marked then start.next.next.next.skip true else start
  let (node, after) ←
    if c.isAtEnd ∨ c.isAtMark then some (missing, c)
    else blockNode bound none (!marked || c.line ≠ start.line) c
  if (skipEnds bound (after.skip true)).isAtEnd then return node else none

end Yaml

end ModelExport
