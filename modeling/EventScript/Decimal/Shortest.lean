import EventScript.Number

/-!
The shortest decimal that reads back as a given double: of the decimals that round to it, those on
the coarsest power-of-ten grid, and of these the nearest. All in exact arithmetic.
-/
namespace EventScript

/-- The nonnegative decimal `digits * 10 ^ exponent`. -/
structure Decimal where
  digits : Nat
  exponent : Int
deriving DecidableEq, Inhabited

namespace Decimal

/-- Which of two equally near decimals is taken: the larger, or the one with an even last digit. -/
inductive Tie where
  | up | toEven
deriving DecidableEq

/-- The reals that round to a double, in units of `2 ^ scale`: `low`, the double itself as
`value`, and `high`. The ends belong to the interval when `closed`. -/
structure Interval where
  low : Nat
  value : Nat
  high : Nat
  scale : Int
  closed : Bool

/-- Half way to both neighbours. Below a power of two the neighbour is half as far. -/
def Interval.around (significand : Nat) (scale : Int) : Interval where
  low := 4 * significand - (if significand = 0x10000000000000 then 1 else 2)
  value := 4 * significand
  high := 4 * significand + 2
  scale := scale - 2
  closed := significand % 2 = 0

/-- The grid point of `10 ^ exponent` nearest to the value, if it lies in the interval. -/
def Interval.onGrid (i : Interval) (tie : Tie) (exponent : Int) : Option Decimal :=
  let up := Nat.pow 10 (-exponent).toNat <<< i.scale.toNat
  let unit := Nat.pow 10 exponent.toNat <<< (-i.scale).toNat
  let within (c : Nat) : Bool :=
    if i.closed then i.low * up ≤ c * unit && c * unit ≤ i.high * up
    else i.low * up < c * unit && c * unit < i.high * up
  let value := i.value * up
  let floor := value / unit
  let ceiling := floor + 1
  let below := value - floor * unit
  let above := ceiling * unit - value
  let takesFloor := below < above || (below = above && tie = .toEven && floor % 2 = 0)
  if within floor && (takesFloor || !within ceiling) then some ⟨floor, exponent⟩
  else if within ceiling then some ⟨ceiling, exponent⟩
  else none

/-- A power of ten above `significand * 2 ^ scale`, by at most three factors of ten. -/
def exponentAbove (significand : Nat) (scale : Int) : Int :=
  ((significand.log2 : Int) + 1 + scale) * 30103 / 100000 + 1

/-- Grids are tried from the coarsest on; seventeen digits always tell a double apart. -/
def shortest (tie : Tie) (significand : Nat) (scale : Int) : Decimal :=
  let start := exponentAbove significand scale
  ((List.range 24).findSome? fun (step : Nat) =>
    (Interval.around significand scale).onGrid tie (start - step)).getD ⟨0, 0⟩

/-- Written without an exponent, however long that is. -/
def positional (d : Decimal) : String :=
  let text := toString d.digits
  match d.exponent with
  | .ofNat k => text ++ String.ofList (List.replicate k '0')
  | .negSucc k =>
    let places := k + 1
    if places < text.length then
      let whole := text.length - places
      String.ofList (text.toList.take whole) ++ "." ++ String.ofList (text.toList.drop whole)
    else "0." ++ String.ofList (List.replicate (places - text.length) '0') ++ text

end Decimal

namespace Number

/-- The plain text of a number: the shortest digits that read back, of two equally near ones the
larger, never with an exponent. -/
def display (n : Number) : String :=
  if n.isNaN then "NaN"
  else
    let sign := if n.negative then "-" else ""
    if !n.isFinite then sign ++ "inf"
    else if n.significand = 0 then sign ++ "0"
    else sign ++ (Decimal.shortest .up n.significand n.scale).positional

/-- The text a script sees. A whole number below 10 ^ 15 is written as an integer, so that minus
zero loses its sign; all else as `display` has it. -/
def text (n : Number) : String :=
  match n.wholeMagnitude? with
  | some k =>
    if k < 1000000000000000 then (if n.negative && k != 0 then "-" else "") ++ toString k else n.display
  | none => n.display

end Number

end EventScript
