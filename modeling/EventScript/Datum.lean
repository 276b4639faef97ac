import EventScript.Decimal.Shortest
import EventScript.Text.Hex
import EventScript.Value

/-!
Values written out: what a value shows of itself, without handles. A datum is what is displayed,
and what is encoded and decoded.
-/
namespace EventScript

inductive Datum where
  | number (n : Number)
  | string (s : String)
  | list (items : List Datum)
  | dict (entries : List (Datum × Datum))
  | struct (fields : List Datum)
  | vector (v : Vec3)
  | uuid (u : Uuid)
  | text (t : RichText)
  | extension (object : HostObject)

/-- Groups of 8, 4, 4, 4 and 12 digits. -/
def Uuid.display (u : Uuid) : String :=
  let high := Text.Hex.fixed 16 u.high.toNat
  let low := Text.Hex.fixed 16 u.low.toNat
  "-".intercalate ([high.take 8, (high.drop 8).take 4, high.drop 12, low.take 4, low.drop 4].map
    String.ofList)

def Vec3.display (v : Vec3) : String := s!"<{v.x.text}, {v.y.text}, {v.z.text}>"

namespace Datum

instance : Inhabited Datum := ⟨.number .zero⟩

mutual

/-- Equality of contents: numbers by their words, dicts whatever the order of their entries. -/
def same : Datum → Datum → Bool
  | number n, number m => n = m
  | string s, string t => s = t
  | list xs, list ys => sameItems xs ys
  | dict es, dict fs => es.length = fs.length && sameEntries es fs
  | struct xs, struct ys => sameItems xs ys
  | vector v, vector w => v = w
  | uuid u, uuid w => u = w
  | text t, text u => t = u
  | extension o, extension p => o.identity = p.identity
  | _, _ => false

def sameItems : List Datum → List Datum → Bool
  | [], [] => true
  | x :: xs, y :: ys => same x y && sameItems xs ys
  | _, _ => false

/-- Each entry has an equal one among the others. -/
def sameEntries : List (Datum × Datum) → List (Datum × Datum) → Bool
  | [], _ => true
  | (k, v) :: es, fs =>
    (match fs.find? fun f => same k f.1 with
      | some f => same v f.2
      | none => false) && sameEntries es fs

end

mutual

/-- The text of a value: strings and rich text as their bare content. -/
def display : Datum → String
  | number n => n.text
  | string s => s
  | list items => "[" ++ ", ".intercalate (displayItems items) ++ "]"
  | dict entries => "\x7b" ++ ", ".intercalate (displayEntries entries) ++ "\x7d"
  | struct fields => "(" ++ ", ".intercalate (displayItems fields) ++ ")"
  | vector v => v.display
  | uuid u => u.display
  | text t => t.contents
  | extension object => object.description

def displayItems : List Datum → List String
  | [] => []
  | x :: xs => display x :: displayItems xs

def displayEntries : List (Datum × Datum) → List String
  | [] => []
  | (k, v) :: es => (display k ++ ": " ++ display v) :: displayEntries es

end

/-- Adds an entry as a dict does: an equal key stays where it is and gets the new value. -/
def putEntry (key value : Datum) : List (Datum × Datum) → List (Datum × Datum)
  | [] => [(key, value)]
  | (k, v) :: es => if same key k then (k, value) :: es else (k, v) :: putEntry key value es

/-- The dict with these entries, added one after the other. -/
def ofEntries (entries : List (Datum × Datum)) : Datum :=
  .dict (entries.foldl (fun es (k, v) => putEntry k v es) [])

end Datum

end EventScript
