/-!
Places in a source text: byte ranges, and the line and column of a byte offset.
-/
namespace EventScript

/-- The bytes from `start` up to `stop` of the UTF-8 text. -/
structure Span where
  start : Nat
  stop : Nat
deriving DecidableEq, Inhabited

namespace Span

def none : Span := ⟨0, 0⟩

/-- The least span that covers both. -/
def merge (a b : Span) : Span := ⟨min a.start b.start, max a.stop b.stop⟩

end Span

/-- A place as it is shown: both count from one, columns in characters. -/
structure LineColumn where
  line : Nat
  column : Nat
deriving DecidableEq

namespace LineColumn

/-- Steps over the characters that begin before `offset`, `byte` being where the next one begins. -/
def advance (offset : Nat) : (byte : Nat) → LineColumn → List Char → LineColumn
  | _, here, [] => here
  | byte, here, c :: cs =>
    if offset ≤ byte then here
    else
      let next := if c = '\n' then ⟨here.line + 1, 1⟩ else ⟨here.line, here.column + 1⟩
      advance offset (byte + c.utf8Size) next cs

/-- Where a byte offset lies in a text; offsets past the end lie at the end. -/
def ofOffset (source : String) (offset : Nat) : LineColumn :=
  advance offset 0 ⟨1, 1⟩ source.toList

end LineColumn

end EventScript
