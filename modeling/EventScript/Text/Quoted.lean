import EventScript.Text.Unprintable
import EventScript.Text.GraphemeExtend
import EventScript.Text.Hex

/-!
Strings shown in double quotes. What could not be seen or would join its neighbour is escaped.
-/
namespace EventScript.Text

/-- How a character is shown between double quotes; a single quote needs no escape there. -/
def quotedChar (c : Char) : List Char :=
  match c with
  | '\x00' => ['\\', '0']
  | '\t' => ['\\', 't']
  | '\r' => ['\\', 'r']
  | '\n' => ['\\', 'n']
  | '"' => ['\\', '"']
  | '\\' => ['\\', '\\']
  | c =>
    if isGraphemeExtend c || isUnprintable c then
      ['\\', 'u', '\x7b'] ++ Hex.minimal c.toNat ++ ['\x7d']
    else [c]

def quoted (s : String) : String := String.ofList ('"' :: s.toList.flatMap quotedChar ++ ['"'])

end EventScript.Text
