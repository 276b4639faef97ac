import EventScript.Value

/-!
Random identifiers. They are of version 4: six bits are fixed and the others drawn, from a seed that
is stepped and scrambled word by word.
-/
namespace EventScript.Uuid

/-- The identifier with these bits wherever version 4 leaves a choice. -/
def ofRandomBits (high low : UInt64) : Uuid :=
  ⟨high &&& 0xffffffffffff0fff ||| 0x4000, low &&& 0x3fffffffffffffff ||| 0x8000000000000000⟩

/-- Spreads every bit over the whole word. Different words stay different. -/
def scramble (w : UInt64) : UInt64 :=
  let w := (w ^^^ (w >>> 30)) * 0xbf58476d1ce4e5b9
  let w := (w ^^^ (w >>> 27)) * 0x94d049bb133111eb
  w ^^^ (w >>> 31)

/-- The identifiers drawn from a seed, by their number. -/
def drawnFrom (seed : UInt64) (n : Nat) : Uuid :=
  let word (i : Nat) := scramble (seed + i.toUInt64 * 0x9e3779b97f4a7c15)
  ofRandomBits (word (2 * n + 1)) (word (2 * n + 2))

end EventScript.Uuid
