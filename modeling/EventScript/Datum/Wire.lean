import EventScript.Number

/-!
The pieces of the binary format: errors, variable-length integers and words. An integer is written
in groups of seven bits, least significant first, each byte but the last with its top bit set.
-/
namespace EventScript

inductive CodecError where
  | unknownTag (tag : Nat)
  | unencodable (typeName : String)
  | unexpectedEnd (position : Nat)
  | varintTooLong (position : Nat)
  | invalidUtf8 (position : Nat)
  | lengthOverflow (length : Nat)
  | tooDeep
  | trailingBytes (remaining : Nat)
deriving DecidableEq

/-- The word for the reason alone. -/
def CodecError.label : CodecError → String
  | .unknownTag _ => "UnknownTag"
  | .unencodable _ => "Unencodable"
  | .unexpectedEnd _ => "UnexpectedEof"
  | .varintTooLong _ => "VarIntTooLong"
  | .invalidUtf8 _ => "InvalidUtf8"
  | .lengthOverflow _ => "LengthOverflow"
  | .tooDeep => "TooDeep"
  | .trailingBytes _ => "TrailingBytes"

def CodecError.message : CodecError → String
  | .unknownTag tag => s!"unknown value tag {tag}"
  | .unencodable typeName => "value of type \x60" ++ typeName ++ "\x60 cannot be encoded"
  | .unexpectedEnd position => s!"unexpected end of input at byte {position}"
  | .varintTooLong position => s!"varint at byte {position} is longer than 5 bytes"
  | .invalidUtf8 position => s!"invalid UTF-8 in string at byte {position}"
  | .lengthOverflow length => s!"length {length} does not fit in a varint"
  | .tooDeep => "nesting deeper than 512 levels"
  | .trailingBytes remaining => s!"{remaining} trailing bytes after value"

namespace Wire

/-! The tags that begin a value, by its kind. -/

@[match_pattern] def numberTag : Nat := 1
@[match_pattern] def stringTag : Nat := 2
@[match_pattern] def listTag : Nat := 3
@[match_pattern] def dictTag : Nat := 4
@[match_pattern] def structTag : Nat := 5
@[match_pattern] def vectorTag : Nat := 6
@[match_pattern] def uuidTag : Nat := 7
@[match_pattern] def textTag : Nat := 8

/-- A value may lie inside this many containers, when written and when read. -/
def maxDepth : Nat := 512

/-- Lengths must stay below this. -/
def lengthLimit : Nat := 0x100000000

def varint (n : Nat) : List UInt8 :=
  if n < 128 then [n.toUInt8] else (n % 128 + 128).toUInt8 :: varint (n / 128)

/-- The eight bytes of a word, most significant first. -/
def word (w : UInt64) : List UInt8 :=
  [56, 48, 40, 32, 24, 16, 8, 0].map fun (shift : UInt64) => (w >>> shift).toUInt8

/-- The word of eight bytes. -/
def ofBytes (bytes : List UInt8) : UInt64 :=
  bytes.foldl (fun w b => (w <<< 8) ||| b.toUInt64) 0

def utf8 (s : String) : List UInt8 := s.toUTF8.data.toList

end Wire

end EventScript
