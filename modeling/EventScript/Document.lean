import EventScript.Datum.Decoding
import EventScript.Datum.Encoding
import EventScript.SortedMap

/-!
Documents: data under names. Names are written in ascending order, so that the order in which
entries came does not show in the bytes.
-/
namespace EventScript

abbrev Document := SortedMap String Datum

namespace Document

def encodeNamed : List (String × Datum) → Except CodecError (List UInt8)
  | [] => .ok []
  | (name, d) :: es => do
    let key ← Wire.string name
    let value ← d.encode
    let rest ← encodeNamed es
    return key ++ value ++ rest

def encode (doc : Document) : Except CodecError (List UInt8) := do
  let count ← Wire.length doc.size
  let contents ← encodeNamed doc.entries
  return count ++ contents

/-- A name and its datum. -/
def entry : Decoder (String × Datum) := do
  let name ← Decoder.string
  let d ← Decoder.datum
  return (name, d)

/-- Names may come in any order; of equal names the last one counts. -/
def decode (bytes : List UInt8) : Except CodecError Document :=
  Decoder.runAll (do return SortedMap.ofList (← Decoder.many entry (← Decoder.varint) [])) bytes

end Document

end EventScript
