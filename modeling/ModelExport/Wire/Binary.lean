import ModelExport.Wire.Layout
import ModelExport.Wire.Varint

/-!
# The binary notation

Data are written one after the other without names. `Datum.encode` needs
no layout: a datum says itself how it is written. `Datum.decode` is led
by the layout of the entity that it expects. The reader of an entity is
given the reader of the entities inside it, so it is a plain recursion on
the nesting; every entity inside another one starts at least one byte
later, and therefore as many levels as there are bytes are enough.
-/

namespace ModelExport

/-- The bytes of a text. -/
def utf8 (s : String) : List UInt8 := s.toByteArray.data.toList

/-- The text of the bytes, if they are well-formed. -/
def ofUtf8? (bytes : List UInt8) : Option String := String.fromUTF8? ⟨bytes.toArray⟩

namespace Single

/-- The four bytes of the pattern, least significant first. -/
def toBytes (x : Single) : List UInt8 :=
  let n := x.bits.toNat
  [UInt8.ofNat n, UInt8.ofNat (n / 0x100), UInt8.ofNat (n / 0x10000), UInt8.ofNat (n / 0x1000000)]

/-- The number of such bytes. -/
def ofBytes (bytes : List UInt8) : Single :=
  ⟨UInt32.ofNat (bytes.foldr (fun b n => b.toNat + 256 * n) 0)⟩

end Single

namespace Datum

/-! ## Writing -/

mutual

/-- Writes a datum in front of the bytes that follow it. -/
def write : Datum → List UInt8 → List UInt8
  | .bool b, after => (if b then 1 else 0) :: after
  | .uint n, after => Varint.encode n.toNat ++ after
  | .int n, after => Varint.encode (zigzag n) ++ after
  | .single x, after => x.toBytes ++ after
  | .text s, after => Varint.encode (utf8 s).length ++ (utf8 s ++ after)
  | .absent, after => 0 :: after
  | .present d, after => 1 :: d.write after
  | .list items, after => Varint.encode items.length ++ writeItems items after
  | .table entries, after => Varint.encode entries.length ++ writeEntries entries after
  | .record fields, after => writeItems fields after
  | .variant index content, after => Varint.encode index ++ content.write after

def writeItems : List Datum → List UInt8 → List UInt8
  | [], after => after
  | d :: rest, after => d.write (writeItems rest after)

def writeEntries : List (Datum × Datum) → List UInt8 → List UInt8
  | [], after => after
  | (k, v) :: rest, after => k.write (v.write (writeEntries rest after))

end

/-- The bytes of a datum. -/
def encode (d : Datum) : List UInt8 := d.write []

/-! ## Reading -/

/-- A byte that is zero or one. -/
def readFlag (otherwise : WireError) : ByteReader Bool := do
  let b ← ByteReader.byte
  if b = 0 then return false
  else if b = 1 then return true
  else throw otherwise

def readText : ByteReader String := do
  let count ← Varint.read64
  let bytes ← ByteReader.take count
  match ofUtf8? bytes with
  | some s => return s
  | none => throw .badText

/-- So many data, each read by the same reader. -/
def readMany {α : Type} (read : ByteReader α) : Nat → ByteReader (List α)
  | 0 => return []
  | count + 1 => do
      let a ← read
      let rest ← readMany read count
      return a :: rest

/-- A datum of a shape, given the reader of entities. -/
def readShape (readEntity : Entity → ByteReader Datum) : Shape → ByteReader Datum
  | .bool => .bool <$> readFlag .badFlag
  | .uint => (fun n => .uint (UInt64.ofNat n)) <$> Varint.read64
  | .int => (fun n => .int (ofZigzag n)) <$> Varint.read64
  | .single => (fun bytes => .single (Single.ofBytes bytes)) <$> ByteReader.take 4
  | .text => .text <$> readText
  | .list item => do
      let count ← Varint.read64
      .list <$> readMany (readShape readEntity item) count
  | .table key value => do
      let count ← Varint.read64
      .table <$> readMany (do return (← readShape readEntity key, ← readShape readEntity value))
        count
  | .entity e => readEntity e

/-- The fields of a record, one after the other. -/
def readFields (readEntity : Entity → ByteReader Datum) : List Field → ByteReader (List Datum)
  | [] => return []
  | field :: rest => do
      let d ←
        if field.optional then do
          if ← readFlag .badOption then .present <$> readShape readEntity field.shape
          else pure .absent
        else readShape readEntity field.shape
      let ds ← readFields readEntity rest
      return d :: ds

def readContent (readEntity : Entity → ByteReader Datum) : Content → ByteReader Datum
  | .empty => return .record []
  | .one shape => readShape readEntity shape
  | .fields fields => .record <$> readFields readEntity fields

/-- An entity whose parts nest at most so deeply. -/
def readEntity : Nat → Entity → ByteReader Datum
  | 0, _ => throw .endOfInput
  | level + 1, e =>
      match e.layout with
      | .record fields => .record <$> readFields (readEntity level) fields
      | .choice cases => do
          let index ← Varint.read32
          match cases[index]? with
          | some c => .variant index <$> readContent (readEntity level) c.content
          | none => throw .unknownCase

/-- The entity at the front of the bytes and the bytes behind it. -/
def decode (e : Entity) (bytes : List UInt8) : Except WireError (Datum × List UInt8) :=
  readEntity (bytes.length + 1) e bytes

end Datum

end ModelExport
