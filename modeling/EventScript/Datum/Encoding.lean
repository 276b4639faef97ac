import EventScript.Datum
import EventScript.Datum.Wire

/-!
Writing data. A value is a tag and a payload: numbers as words, strings and containers with their
length first. Of several faults the first in writing order is the one reported.
-/
namespace EventScript

namespace Wire

def length (n : Nat) : Except CodecError (List UInt8) :=
  if n < lengthLimit then .ok (varint n) else .error (.lengthOverflow n)

def number (n : Number) : List UInt8 := word n.bits

def string (s : String) : Except CodecError (List UInt8) :=
  (length (utf8 s).length).map (· ++ utf8 s)

/-- No color is written as zero, a color as its successor; the last one has none and stays. -/
def color : Option UInt32 → List UInt8
  | none => varint 0
  | some color => varint (min (color.toNat + 1) 0xffffffff)

def segments : List Segment → Except CodecError (List UInt8)
  | [] => .ok []
  | s :: ss => do
    let content ← string s.content
    let rest ← segments ss
    return color s.color ++ content ++ rest

end Wire

namespace Datum

open Wire

mutual

/-- The bytes of a datum that lies inside `depth` containers. -/
def encodeAt (depth : Nat) (d : Datum) : Except CodecError (List UInt8) :=
  if depth > maxDepth then .error .tooDeep
  else match d with
    | number n => .ok (varint numberTag ++ Wire.number n)
    | string s => (Wire.string s).map (varint stringTag ++ ·)
    | list items => do
      let count ← length items.length
      let contents ← encodeItems (depth + 1) items
      return varint listTag ++ count ++ contents
    | dict entries => do
      let count ← length entries.length
      let contents ← encodeEntries (depth + 1) entries
      return varint dictTag ++ count ++ contents
    | struct fields => do
      let count ← length fields.length
      let contents ← encodeItems (depth + 1) fields
      return varint structTag ++ count ++ contents
    | vector v =>
      .ok (varint vectorTag ++ Wire.number v.x ++ Wire.number v.y ++ Wire.number v.z)
    | uuid u => .ok (varint uuidTag ++ word u.high ++ word u.low)
    | text t => do
      let count ← length t.segments.length
      let contents ← Wire.segments t.segments
      return varint textTag ++ count ++ contents
    | extension object => .error (.unencodable object.typeName)

def encodeItems (depth : Nat) : List Datum → Except CodecError (List UInt8)
  | [] => .ok []
  | d :: ds => do
    let first ← encodeAt depth d
    let rest ← encodeItems depth ds
    return first ++ rest

/-- Every key is followed by its value. -/
def encodeEntries (depth : Nat) : List (Datum × Datum) → Except CodecError (List UInt8)
  | [] => .ok []
  | (k, v) :: es => do
    let key ← encodeAt depth k
    let value ← encodeAt depth v
    let rest ← encodeEntries depth es
    return key ++ value ++ rest

end

def encode (d : Datum) : Except CodecError (List UInt8) := d.encodeAt 0

end Datum

end EventScript
