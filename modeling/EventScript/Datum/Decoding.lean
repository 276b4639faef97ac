import EventScript.Datum
import EventScript.Datum.Wire

/-!
Reading data. A reader keeps the bytes that are left and its position, which stays where a read
failed. Reading refuses nesting that writing would refuse.
-/
namespace EventScript

structure Reader where
  bytes : List UInt8
  position : Nat := 0

namespace Reader

def ofBytes (bytes : List UInt8) : Reader := { bytes }

def remaining (r : Reader) : Nat := r.bytes.length

end Reader

/-- Reads from a reader, which moves on also when the read fails. -/
abbrev Decoder := ExceptT CodecError (StateM Reader)

namespace Decoder

def fail (e : CodecError) : Decoder α := throw e

def byte : Decoder UInt8 := do
  let r ← get
  match r.bytes with
  | [] => fail (.unexpectedEnd r.position)
  | b :: bytes =>
    set (⟨bytes, r.position + 1⟩ : Reader)
    return b

/-- The next `n` bytes. If there are fewer, none is read and the end is where the input ends. -/
def exactly (n : Nat) : Decoder (List UInt8) := do
  let r ← get
  let taken := r.bytes.take n
  if taken.length = n then
    set (⟨r.bytes.drop n, r.position + n⟩ : Reader)
    return taken
  else fail (.unexpectedEnd (r.position + r.remaining))

/-- At most `left` more groups of a variable-length integer that began at `start`. What does not
fit in 32 bits is dropped. -/
def varintGroups (start : Nat) : (left shift value : Nat) → Decoder Nat
  | 0, _, _ => fail (.varintTooLong start)
  | left + 1, shift, value => do
    let b ← byte
    let value := value + (b.toNat % 128) <<< shift
    if b.toNat < 128 then return value % 0x100000000
    varintGroups start left (shift + 7) value

def varint : Decoder Nat := do
  let r ← get
  varintGroups r.position 5 0 0

def number : Decoder Number := return ⟨Wire.ofBytes (← exactly 8)⟩

def string : Decoder String := do
  let length ← varint
  let start := (← get).position
  let bytes ← exactly length
  match String.fromUTF8? ⟨bytes.toArray⟩ with
  | some s => return s
  | none => fail (.invalidUtf8 start)

/-- Reads `count` items, those read so far being kept backwards. -/
def many (item : Decoder α) : (count : Nat) → (read : List α) → Decoder (List α)
  | 0, read => return read.reverse
  | count + 1, read => do
    let a ← item
    many item count (a :: read)

/-- Zero is no color, any other number one more than its color. -/
def segment : Decoder Segment := do
  let color ← varint
  let content ← string
  return ⟨content, if color = 0 then none else some (color - 1).toUInt32⟩

def entry (item : Decoder Datum) : Decoder (Datum × Datum) := do
  let key ← item
  let value ← item
  return (key, value)

/-- Reads a datum that may hold `levels - 1` levels of containers. -/
def datumTo : (levels : Nat) → Decoder Datum
  | 0 => fail .tooDeep
  | levels + 1 => do
    match ← varint with
    | Wire.numberTag => return .number (← number)
    | Wire.stringTag => return .string (← string)
    | Wire.listTag => return .list (← many (datumTo levels) (← varint) [])
    | Wire.dictTag => return .ofEntries (← many (entry (datumTo levels)) (← varint) [])
    | Wire.structTag => return .struct (← many (datumTo levels) (← varint) [])
    | Wire.vectorTag =>
      let x ← number
      let y ← number
      let z ← number
      return .vector ⟨x, y, z⟩
    | Wire.uuidTag =>
      let bytes ← exactly 16
      return .uuid ⟨Wire.ofBytes (bytes.take 8), Wire.ofBytes (bytes.drop 8)⟩
    | Wire.textTag => return .text (.ofSegments (← many segment (← varint) []))
    | tag => fail (.unknownTag tag)

def datum : Decoder Datum := datumTo (Wire.maxDepth + 1)

/-- Nothing may be left. -/
def finish : Decoder Unit := do
  let r ← get
  if r.bytes.isEmpty then return ()
  fail (.trailingBytes r.remaining)

/-- Reads a whole input. -/
def runAll (decoder : Decoder α) (bytes : List UInt8) : Except CodecError α :=
  (do
    let a ← decoder
    finish
    return a : Decoder α).run.run (.ofBytes bytes) |>.1

end Decoder

namespace Datum

/-- Reads exactly one datum that takes up all the bytes. -/
def decode (bytes : List UInt8) : Except CodecError Datum := Decoder.datum.runAll bytes

end Datum

end EventScript
