import EventScript.Decimal.Shortest

/-!
Reading decimals: the double nearest to a decimal, and the grammar of numbers given as text.
-/
namespace EventScript

namespace Decimal

/-- The double nearest to a decimal. Exponents far outside the range of doubles are cut off before
any power of ten is formed. -/
def toNumber (d : Decimal) : Number :=
  if d.digits = 0 then .zero
  else if d.exponent > 400 then .infinity
  else if d.exponent + (d.digits.log2 : Int) < -1200 then .zero
  else match d.exponent with
    | .ofNat k => .ofFloat (Float.ofScientific d.digits false k)
    | .negSucc k => .ofFloat (Float.ofScientific d.digits true (k + 1))

def digitValue (c : Char) : Nat := c.toNat - '0'.toNat

def ofDigits (cs : List Char) : Nat := cs.foldl (fun n c => 10 * n + digitValue c) 0

/-- The decimal with these digits before and after the point. -/
def ofParts (whole fraction : List Char) : Decimal :=
  ⟨ofDigits (whole ++ fraction), -(fraction.length : Int)⟩

/-- An exponent part: nothing, or `e`, an optional sign and digits to the end. -/
def readExponent : List Char → Option Int
  | [] => some 0
  | c :: rest =>
    if c = 'e' || c = 'E' then
      let (negative, digits) := match rest with
        | '-' :: ds => (true, ds)
        | '+' :: ds => (false, ds)
        | ds => (false, ds)
      if digits.isEmpty || !digits.all Char.isDigit then none
      else some (if negative then -(ofDigits digits : Int) else ofDigits digits)
    else none

/-- Unsigned: digits with a point anywhere among them or at either end, then an exponent part. -/
def read? (cs : List Char) : Option Decimal :=
  let whole := cs.takeWhile Char.isDigit
  let (fraction, rest) := match cs.dropWhile Char.isDigit with
    | '.' :: more => (more.takeWhile Char.isDigit, more.dropWhile Char.isDigit)
    | rest => ([], rest)
  if whole.isEmpty && fraction.isEmpty then none
  else (readExponent rest).map fun e =>
    let d := ofParts whole fraction
    ⟨d.digits, d.exponent + e⟩

end Decimal

namespace Number

/-- Infinity and NaN are spelled in any case. -/
def readUnsigned? (cs : List Char) : Option Number :=
  let word := String.ofList (cs.map Char.toLower)
  if word = "inf" || word = "infinity" then some infinity
  else if word = "nan" then some notANumber
  else (Decimal.read? cs).map Decimal.toNumber

/-- A number given as text: an optional sign, then a decimal, infinity or NaN. -/
def read? (text : String) : Option Number :=
  match text.toList with
  | '-' :: rest => (readUnsigned? rest).map negate
  | '+' :: rest => readUnsigned? rest
  | cs => readUnsigned? cs

end Number

end EventScript
