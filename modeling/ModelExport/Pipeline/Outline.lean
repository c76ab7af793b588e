import ModelExport.Json.Printer
import ModelExport.Pipeline.Walk

/-!
# Outlines

A pipeline and a plan on one line, for people: records with their field
names, cases with what they hold, names in quotes.
-/

namespace ModelExport

/-- What an outline shows. -/
inductive Outline where
  | word (text : String)
  | quoted (text : String)
  | list (items : List Outline)
  | call (name : String) (content : Outline)
  | record (name : String) (fields : List (String × Outline))

namespace Outline

/-- A character of a quoted name. Control characters are shown by their number. -/
def escapeChar (c : Char) : List Char :=
  if c = '\x22' then ['\\', '\x22']
  else if c = '\\' then ['\\', '\\']
  else if c = '\n' then ['\\', 'n']
  else if c = '\r' then ['\\', 'r']
  else if c = '\t' then ['\\', 't']
  else if c.toNat = 0 then ['\\', '0']
  else if c.toNat < 32 ∨ c.toNat = 127 then
    ['\\', 'u', '\x7b'] ++ (if c.toNat < 16 then [] else [Json.hexChar (c.toNat / 16)])
      ++ [Json.hexChar (c.toNat % 16), '\x7d']
  else [c]

mutual

/-- Writes an outline in front of what follows it. -/
def write : Outline → List Char → List Char
  | .word text, after => text.toList ++ after
  | .quoted text, after => '\x22' :: (text.toList.flatMap escapeChar ++ '\x22' :: after)
  | .list [], after => '[' :: ']' :: after
  | .list (item :: rest), after => '[' :: item.write (writeItems rest (']' :: after))
  | .call name content, after => name.toList ++ '(' :: content.write (')' :: after)
  | .record name [], after => name.toList ++ after
  | .record name ((field, content) :: rest), after =>
      name.toList ++ ' ' :: '\x7b' :: ' ' :: (field.toList ++ ':' :: ' ' ::
        content.write (writeFields rest (' ' :: '\x7d' :: after)))

/-- Writes the items that follow the first one. -/
def writeItems : List Outline → List Char → List Char
  | [], after => after
  | item :: rest, after => ',' :: ' ' :: item.write (writeItems rest after)

/-- Writes the fields that follow the first one. -/
def writeFields : List (String × Outline) → List Char → List Char
  | [], after => after
  | (field, content) :: rest, after =>
      ',' :: ' ' :: (field.toList ++ ':' :: ' ' :: content.write (writeFields rest after))

end

def text (o : Outline) : String := String.ofList (o.write [])

def ofNat (n : Nat) : Outline := .word (decimal n)

def ofBool (b : Bool) : Outline := .word (if b then "true" else "false")

def quotedList (names : List String) : Outline := .list (names.map .quoted)

end Outline

/-! ## Columns -/

def Item.outline : Item → Outline
  | .primitive kind => .call "Primitive" (.word kind.name)
  | .key raw count => .record "Key" [("raw", .word raw.name), ("count", .ofNat count.toNat)]

def ColumnType.outline : ColumnType → Outline
  | .scalar item => .call "Scalar" item.outline
  | .vector item dims =>
      .record "Vector"
        [("item", item.outline), ("dims", .list (dims.map fun d => .ofNat d.toNat))]

def Column.outline (c : Column) : Outline :=
  .record "Column"
    [("name", .quoted c.name), ("ty", c.type.outline), ("hidden", .ofBool c.hidden)]

def Schema.outline (s : Schema) : Outline :=
  .record "Schema" [("columns", .list (s.columns.map Column.outline))]

/-! ## Pipelines and plans -/

def Pipeline.outline (p : Pipeline) : Outline :=
  .record "Pipeline"
    [("source", p.source.outline), ("stages", .quotedList (p.stages.map (·.name)))]

/-- Where a walk stopped, on its own. -/
def Stop.outline : Stop → Outline
  | .source => .word "StoppedAtSource"
  | .unexportable index _ => .call "StoppedAtUnexportable" (.ofNat index)

def Plan.outline (p : Plan) : Outline :=
  .record "WalkPlan"
    [("stages", .quotedList p.stageNames),
     ("state", p.stop.outline),
     ("truncated_at",
      match p.truncatedAt? with
      | some stage => .call "Some" (.quoted stage)
      | none => .word "None")]

end ModelExport
