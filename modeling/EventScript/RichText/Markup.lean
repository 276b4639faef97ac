import EventScript.RichText
import EventScript.Text.Hex

/-!
Color markup: a tag of six hexadecimal digits colors what follows it, a closing tag ends the color,
and everything else, a lone opening bracket included, stands for itself.
-/
namespace EventScript

inductive MarkupError where
  /-- A color tag that is not well formed begins at this byte. -/
  | invalidColor (offset : Nat)
  | colorOutOfRange (color : UInt32)
deriving DecidableEq

/-- The word for the reason alone. -/
def MarkupError.label : MarkupError → String
  | .invalidColor _ => "InvalidColor"
  | .colorOutOfRange _ => "ColorOutOfRange"

def MarkupError.message : MarkupError → String
  | invalidColor offset => s!"invalid color tag at byte {offset}: expected <#rrggbb>"
  | colorOutOfRange color =>
    s!"color 0x{String.ofList (Text.Hex.minimal color.toNat)} does not fit in 24 bits"

namespace RichText

/-- The color that six hexadecimal digits denote. -/
def colorOfDigits? (digits : List Char) : Option UInt32 :=
  if digits.length = 6 then (Text.Hex.read? digits).map UInt32.ofNat else none

/-- Six hexadecimal digits, with or without a number sign before them. -/
def readColor? (text : String) : Option UInt32 :=
  match text.toList with
  | '#' :: digits => colorOfDigits? digits
  | digits => colorOfDigits? digits

/-- What follows the opening of a color tag: its color and the characters after it. -/
def readTag? (cs : List Char) : Option (UInt32 × List Char) :=
  match cs.drop 6 with
  | '>' :: rest => (colorOfDigits? (cs.take 6)).map (·, rest)
  | _ => none

theorem length_readTag?_lt {cs rest : List Char} {color : UInt32}
    (h : readTag? cs = some (color, rest)) : rest.length < cs.length := by
  unfold readTag? at h
  split at h
  · rename_i tail hdrop
    have hlength := congrArg List.length hdrop
    obtain ⟨_, _, h⟩ := Option.map_eq_some_iff.1 h
    cases h
    simp only [List.length_drop, List.length_cons] at hlength
    omega
  · contradiction

/-- Adds characters, which are given backwards. -/
def pushRun (t : RichText) (run : List Char) (color : Option UInt32) : RichText :=
  t.push ⟨String.ofList run.reverse, color⟩

/-- Reads markup from byte `offset` on. `run` holds the characters, backwards, that are read but
not yet in a segment; they and those that follow have the color `color`. -/
def parseMarkupFrom (offset : Nat) (text : RichText) (color : Option UInt32) (run : List Char)
    (cs : List Char) : Except MarkupError RichText :=
  match cs with
  | [] => .ok (text.pushRun run color)
  | '<' :: '/' :: '>' :: rest =>
    parseMarkupFrom (offset + 3) (text.pushRun run color) none [] rest
  | '<' :: '#' :: tag =>
    match _read : readTag? tag with
    | some (rgb, rest) => parseMarkupFrom (offset + 9) (text.pushRun run color) (some rgb) [] rest
    | none => .error (.invalidColor offset)
  | c :: rest => parseMarkupFrom (offset + c.utf8Size) text color (c :: run) rest
termination_by cs.length
decreasing_by
  all_goals simp_wf
  · omega
  · have := length_readTag?_lt _read
    omega

def parseMarkup (markup : String) : Except MarkupError RichText :=
  parseMarkupFrom 0 empty none [] markup.toList

/-- The markup that reads back as this text. -/
def toMarkup (t : RichText) : String :=
  t.segments.foldl (fun markup s =>
    markup ++ match s.color with
      | some color =>
        "<#" ++ String.ofList (Text.Hex.padded 6 color.toNat) ++ ">" ++ s.content ++ "</>"
      | none => s.content) ""

/-- Colors a whole text, refusing what is no color. -/
def withColor (t : RichText) (color : UInt32) : Except MarkupError RichText :=
  if color > maxColor then .error (.colorOutOfRange color) else .ok (t.recolor color)

end RichText

end EventScript
