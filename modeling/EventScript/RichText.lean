/-!
Styled text: a run of segments, each with a color or none. Texts are built by `push`, which drops
empty content and joins content to a last segment of the same color.
-/
namespace EventScript

structure Segment where
  content : String
  color : Option UInt32
deriving DecidableEq, Hashable

structure RichText where
  /-- The segments with the last one first, since that is where texts grow. -/
  lastFirst : List Segment := []
deriving DecidableEq, Hashable, Inhabited

namespace RichText

def empty : RichText := {}

/-- The segments in reading order. -/
def segments (t : RichText) : List Segment := t.lastFirst.reverse

/-- Joins a segment to the last one if their colors agree, else puts it behind. -/
def joinLast (s : Segment) : List Segment → List Segment
  | [] => [s]
  | l :: ls => if l.color = s.color then ⟨l.content ++ s.content, l.color⟩ :: ls else s :: l :: ls

def push (t : RichText) (s : Segment) : RichText :=
  if s.content = "" then t else ⟨joinLast s t.lastFirst⟩

def ofSegments (segments : List Segment) : RichText := segments.foldl push empty

/-- Text without color. -/
def plain (content : String) : RichText := empty.push ⟨content, none⟩

def append (t other : RichText) : RichText := other.segments.foldl push t

/-- The content with its styling stripped. -/
def contents (t : RichText) : String := t.segments.foldl (fun text s => text ++ s.content) ""

/-- The largest color there is. -/
def maxColor : UInt32 := 0xffffff

/-- The same content with one color everywhere. -/
def recolor (t : RichText) (color : UInt32) : RichText :=
  ofSegments (t.segments.map fun s => ⟨s.content, some color⟩)

end RichText

end EventScript
