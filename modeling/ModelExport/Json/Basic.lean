import ModelExport.Decimal.Digits

/-!
# JSON trees

A JSON text as a tree. A `Numeral` keeps a number as it is written, so
that each place which reads one decides what it stands for. Objects keep
their fields in order and keep repeated ones.

The escapes of a JSON string name 16-bit units. Units that leave half of
a surrogate pair name no characters: such a string is well-formed and has
no text. `Json.Text` is therefore optional.
-/

namespace ModelExport

/-- A number as it is written: `-12.50e-3` has the whole part 12, the
fraction 5, 0 and the exponent -3. -/
structure Numeral where
  negative : Bool := false
  whole : Nat
  /-- The digits behind the point. None at all stand for no point. -/
  fraction : List Digit := []
  exponent : Option Int := none
  deriving DecidableEq

/-- The characters of a JSON string, unless its escapes leave half of a surrogate pair. -/
abbrev Json.Text := Option String

/-- A JSON value. -/
inductive Json where
  | null
  | bool (b : Bool)
  | num (n : Numeral)
  | str (s : Json.Text)
  | arr (items : List Json)
  | obj (fields : List (Json.Text × Json))

namespace Json

def ofString (s : String) : Json := .str (some s)

def ofNat (n : Nat) : Json := .num { whole := n }

def ofInt (n : Int) : Json := .num { negative := n < 0, whole := n.natAbs }

/-- An object whose keys are all readable. -/
def object (fields : List (String × Json)) : Json :=
  .obj (fields.map fun f => (some f.1, f.2))

mutual

/-- How deeply arrays and objects are nested. -/
def depth : Json → Nat
  | .null | .bool _ | .num _ | .str _ => 0
  | .arr items => depthItems items + 1
  | .obj fields => depthFields fields + 1

def depthItems : List Json → Nat
  | [] => 0
  | j :: rest => max j.depth (depthItems rest)

def depthFields : List (Json.Text × Json) → Nat
  | [] => 0
  | (_, j) :: rest => max j.depth (depthFields rest)

end

end Json

end ModelExport
