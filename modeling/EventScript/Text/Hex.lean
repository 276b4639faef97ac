/-!
Hexadecimal text, lower case when written and of either case when read.
-/
namespace EventScript.Text.Hex

/-- The digits from the least significant on, `width` of them. -/
def lowDigits : (width : Nat) → Nat → List Char
  | 0, _ => []
  | width + 1, n => Nat.digitChar (n % 16) :: lowDigits width (n / 16)

/-- The last `width` digits of a number, with leading zeros. -/
def fixed (width n : Nat) : List Char := (lowDigits width n).reverse

/-- As many digits as the number needs. -/
def minimal (n : Nat) : List Char := fixed (n.log2 / 4 + 1) n

/-- As many digits as the number needs, but at least `width`. -/
def padded (width n : Nat) : List Char := fixed (max width (n.log2 / 4 + 1)) n

def digit? (c : Char) : Option Nat :=
  if '0' ≤ c && c ≤ '9' then some (c.toNat - '0'.toNat)
  else if 'a' ≤ c && c ≤ 'f' then some (c.toNat - 'a'.toNat + 10)
  else if 'A' ≤ c && c ≤ 'F' then some (c.toNat - 'A'.toNat + 10)
  else none

/-- The number written by these digits, most significant first; `none` if one is not a digit. -/
def read? (cs : List Char) : Option Nat :=
  cs.foldlM (fun n c => (digit? c).map (16 * n + ·)) 0

end EventScript.Text.Hex
