/-!
Script numbers: IEEE doubles kept as their 64-bit words. Two numbers are equal when their words are,
so zero and minus zero differ and a NaN equals itself; arithmetic and order are those of IEEE.
-/
namespace EventScript

/-- A double by its word, sign bit first. -/
structure Number where
  bits : UInt64
deriving DecidableEq, Hashable, Inhabited

namespace Number

def toFloat (n : Number) : Float := Float.ofBits n.bits

def ofFloat (x : Float) : Number := ⟨x.toBits⟩

def zero : Number := ⟨0⟩
def one : Number := ⟨0x3ff0000000000000⟩
def infinity : Number := ⟨0x7ff0000000000000⟩

/-- The NaN that stands for a missing number in text. -/
def notANumber : Number := ⟨0x7ff8000000000000⟩

/-- Invalid operations answer the quiet NaN whose sign bit is set. -/
def invalid : Number := ⟨0xfff8000000000000⟩

def ofNat (n : Nat) : Number := ofFloat (Float.ofNat n)

def ofBool (b : Bool) : Number := if b then one else zero

def negative (n : Number) : Bool := n.bits &&& 0x8000000000000000 != 0

def negate (n : Number) : Number := ⟨n.bits ^^^ 0x8000000000000000⟩

/-- The eleven exponent bits. -/
def exponentField (n : Number) : Nat := ((n.bits >>> 52) &&& 0x7ff).toNat

/-- The 52 fraction bits. -/
def fraction (n : Number) : Nat := (n.bits &&& 0xfffffffffffff).toNat

def isFinite (n : Number) : Bool := n.exponentField != 0x7ff

def isNaN (n : Number) : Bool := n.exponentField == 0x7ff && n.fraction != 0

def quiet (n : Number) : Number := ⟨n.bits ||| 0x8000000000000⟩

/-- A finite number is plus or minus `significand * 2 ^ scale`. -/
def significand (n : Number) : Nat :=
  if n.exponentField = 0 then n.fraction else 0x10000000000000 + n.fraction

/-- The power of two in units of which `significand` counts. -/
def scale (n : Number) : Int :=
  if n.exponentField = 0 then -1074 else (n.exponentField : Int) - 1075

/-- The magnitude of a whole number, `none` for fractions, infinities and NaN. -/
def wholeMagnitude? (n : Number) : Option Nat :=
  if n.isFinite then
    match n.scale with
    | .ofNat k => some (n.significand <<< k)
    | .negSucc k =>
      let unit := 1 <<< (k + 1)
      if n.significand % unit = 0 then some (n.significand / unit) else none
  else none

/-- A NaN operand is answered quieted, the first one winning. -/
def combine (op : Float → Float → Float) (a b : Number) : Number :=
  if a.isNaN then a.quiet
  else if b.isNaN then b.quiet
  else
    let r := ofFloat (op a.toFloat b.toFloat)
    if r.isNaN then invalid else r

def add : Number → Number → Number := combine (· + ·)
def sub : Number → Number → Number := combine (· - ·)
def mul : Number → Number → Number := combine (· * ·)
def div : Number → Number → Number := combine (· / ·)

/-- Strictly below; a NaN is below nothing. -/
def below (a b : Number) : Bool := a.toFloat < b.toFloat

/-- Not below, and not a NaN either. -/
def atLeast (a b : Number) : Bool := b.toFloat ≤ a.toFloat

/-- Everything but the two zeros counts as true, a NaN included. -/
def truthy (n : Number) : Bool := !(n.toFloat == 0)

/-- The largest position that can be asked for. -/
def maxIndex : Nat := 0xffffffffffffffff

/-- The position a number denotes: whole, not negative (minus zero is zero) and at most 2 ^ 64,
which itself counts as the largest position. -/
def index? (n : Number) : Option Nat :=
  match n.wholeMagnitude? with
  | some k => if (n.negative && k != 0) || k > maxIndex + 1 then none else some (min k maxIndex)
  | none => none

end Number

end EventScript
