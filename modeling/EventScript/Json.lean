import EventScript.Decimal.Shortest
import EventScript.Text.Hex

/-!
JSON values and their text: two spaces for each level, an entry a line, keys in the order given.
-/
namespace EventScript

/-- A number as JSON has it. Whole numbers keep all their digits. -/
inductive Json.Numeral where
  | natural (n : Nat)
  /-- Below zero, by its magnitude. -/
  | negative (magnitude : Nat)
  | float (x : Number)
deriving DecidableEq

inductive Json where
  | null
  | bool (b : Bool)
  | number (n : Json.Numeral)
  | string (s : String)
  | array (items : List Json)
  | object (entries : List (String × Json))

namespace Json

instance : Inhabited Json := ⟨.null⟩

/-- The nearest double. -/
def Numeral.toNumber : Numeral → Number
  | natural n => .ofNat n
  | negative n => (Number.ofNat n).negate
  | float x => x

/-- Shortest digits, always with a point or a signed exponent: positional from `1e-5` to below
`1e16`. -/
def floatText (x : Number) : String :=
  let sign := if x.negative then "-" else ""
  if x.significand = 0 then sign ++ "0.0"
  else
    let d := Decimal.shortest .toEven x.significand x.scale
    let digits := (toString d.digits).toList
    let point := d.exponent + digits.length
    sign ++
      if 0 ≤ d.exponent ∧ point ≤ 16 then d.positional ++ ".0"
      else if -5 < point ∧ point ≤ 16 then d.positional
      else
        let fraction := if digits.length = 1 then "" else "." ++ String.ofList digits.tail
        String.ofList (digits.take 1) ++ fraction ++ (if point < 1 then "e" else "e+") ++
          toString (point - 1)

def Numeral.text : Numeral → String
  | natural n => toString n
  | negative n => "-" ++ toString n
  | float x => floatText x

/-- Only what JSON forbids in a string is escaped. -/
def escapedChar (c : Char) : List Char :=
  match c with
  | '"' => ['\\', '"']
  | '\\' => ['\\', '\\']
  | '\x08' => ['\\', 'b']
  | '\x0c' => ['\\', 'f']
  | '\n' => ['\\', 'n']
  | '\r' => ['\\', 'r']
  | '\t' => ['\\', 't']
  | c => if c < ' ' then ['\\', 'u'] ++ Text.Hex.fixed 4 c.toNat else [c]

def stringText (s : String) : String :=
  String.ofList ('"' :: s.toList.flatMap escapedChar ++ ['"'])

/-- Parts one to a line between brackets; no line break if there are none. -/
def block (indent : String) (opening closing : String) (parts : List String) : String :=
  if parts.isEmpty then opening ++ closing
  else
    let inner := "\n" ++ indent ++ "  "
    opening ++ inner ++ ("," ++ inner).intercalate parts ++ "\n" ++ indent ++ closing

mutual

/-- The text of a value that begins on a line indented by `indent`. -/
def textFrom (indent : String) : Json → String
  | null => "null"
  | bool b => toString b
  | number n => n.text
  | string s => stringText s
  | array items => block indent "[" "]" (itemTexts (indent ++ "  ") items)
  | object entries => block indent "\x7b" "\x7d" (entryTexts (indent ++ "  ") entries)

def itemTexts (indent : String) : List Json → List String
  | [] => []
  | j :: js => textFrom indent j :: itemTexts indent js

def entryTexts (indent : String) : List (String × Json) → List String
  | [] => []
  | (key, j) :: es => (stringText key ++ ": " ++ textFrom indent j) :: entryTexts indent es

end

def text (j : Json) : String := j.textFrom ""

end Json

end EventScript
