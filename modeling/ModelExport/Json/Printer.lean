import ModelExport.Json.Basic

/-!
# Writing JSON

One printer for two styles: the compact one has no blanks, the pretty one
gives each part of a container a line of its own, indented by two blanks
for each level, and writes empty containers without a break. Of the
characters of a string only quotes, backslashes and control characters
are escaped. A string without a text is written as half of a surrogate
pair.
-/

namespace ModelExport

namespace Json

/-! ## Strings and numbers -/

def hexChar (n : Nat) : Char :=
  if n < 10 then Char.ofNat (48 + n) else Char.ofNat (87 + n)

/-- The escape of a control character that has no short one. -/
def controlEscape (c : Char) : List Char :=
  ['\\', 'u', '0', '0', hexChar (c.toNat / 16), hexChar (c.toNat % 16)]

def escapeChar (c : Char) : List Char :=
  if c = '\x22' then ['\\', '\x22']
  else if c = '\\' then ['\\', '\\']
  else if c = '\x08' then ['\\', 'b']
  else if c = '\x0c' then ['\\', 'f']
  else if c = '\n' then ['\\', 'n']
  else if c = '\r' then ['\\', 'r']
  else if c = '\t' then ['\\', 't']
  else if c.toNat < 32 then controlEscape c
  else [c]

def textChars : Json.Text → List Char
  | some s => '\x22' :: s.toList.flatMap escapeChar ++ ['\x22']
  | none => ['\x22', '\\', 'u', 'd', '8', '0', '0', '\x22']

def natChars (n : Nat) : List Char := (digits n).map Digit.toChar

/-- The exponent always has a sign. -/
def exponentChars (e : Int) : List Char :=
  'e' :: (if e < 0 then '-' else '+') :: natChars e.natAbs

def numeralChars (n : Numeral) : List Char :=
  (if n.negative then ['-'] else []) ++ natChars n.whole
    ++ (if n.fraction.isEmpty then [] else '.' :: n.fraction.map Digit.toChar)
    ++ (match n.exponent with
        | some e => exponentChars e
        | none => [])

/-! ## Trees -/

/-- What stands between the parts of a container. -/
structure Style where
  /-- Stands before each part, with the level of the part, and before the closing bracket. -/
  gap : Nat → List Char
  colon : List Char

namespace Style

def compact : Style where
  gap := fun _ => []
  colon := [':']

def pretty : Style where
  gap := fun level => '\n' :: List.replicate (2 * level) ' '
  colon := [':', ' ']

end Style

mutual

/-- Writes a tree in front of what follows it. Its parts are at the level above the given one. -/
def write (style : Style) (level : Nat) : Json → List Char → List Char
  | .null, after => 'n' :: 'u' :: 'l' :: 'l' :: after
  | .bool true, after => 't' :: 'r' :: 'u' :: 'e' :: after
  | .bool false, after => 'f' :: 'a' :: 'l' :: 's' :: 'e' :: after
  | .num n, after => numeralChars n ++ after
  | .str s, after => textChars s ++ after
  | .arr [], after => '[' :: ']' :: after
  | .arr (j :: rest), after =>
      '[' :: (style.gap (level + 1) ++ write style (level + 1) j
        (writeItems style (level + 1) rest (style.gap level ++ ']' :: after)))
  | .obj [], after => '\x7b' :: '\x7d' :: after
  | .obj ((key, j) :: rest), after =>
      '\x7b' :: (style.gap (level + 1) ++ (textChars key ++ (style.colon
        ++ write style (level + 1) j
          (writeFields style (level + 1) rest (style.gap level ++ '\x7d' :: after)))))

/-- Writes the items that follow the first one. -/
def writeItems (style : Style) (level : Nat) : List Json → List Char → List Char
  | [], after => after
  | j :: rest, after =>
      ',' :: (style.gap level ++ write style level j (writeItems style level rest after))

/-- Writes the fields that follow the first one. -/
def writeFields (style : Style) (level : Nat) : List (Json.Text × Json) → List Char → List Char
  | [], after => after
  | (key, j) :: rest, after =>
      ',' :: (style.gap level ++ (textChars key ++ (style.colon
        ++ write style level j (writeFields style level rest after))))

end

/-- The text without blanks. -/
def compact (j : Json) : String := String.ofList (j.write .compact 0 [])

/-- The text with a line for each part. -/
def pretty (j : Json) : String := String.ofList (j.write .pretty 0 [])

end Json

end ModelExport
