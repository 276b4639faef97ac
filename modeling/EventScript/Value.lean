import EventScript.Number
import EventScript.RichText
import EventScript.Value.Kind

/-!
Script values. Lists, dicts and structs are handles: the heap holds their contents, and copies of a
handle denote the same container.
-/
namespace EventScript

structure Vec3 where
  x : Number
  y : Number
  z : Number
deriving DecidableEq, Inhabited

namespace Vec3

def add (a b : Vec3) : Vec3 := ⟨a.x.add b.x, a.y.add b.y, a.z.add b.z⟩

/-- The product of each component with its counterpart. -/
def multiply (a b : Vec3) : Vec3 := ⟨a.x.mul b.x, a.y.mul b.y, a.z.mul b.z⟩

end Vec3

/-- A universally unique identifier by its two halves, the first half first. -/
structure Uuid where
  high : UInt64
  low : UInt64
deriving DecidableEq, Inhabited

/-- A value of the host, known by its identity alone. -/
structure HostObject where
  identity : Nat
  typeName : String
  description : String
deriving DecidableEq

/-- Where the heap holds a container. -/
abbrev Ref := Nat

/-- Equality of values is identity of handles: see `Heap.same` for equality of contents. -/
inductive Value where
  | number (n : Number)
  | string (s : String)
  | list (ref : Ref)
  | dict (ref : Ref)
  | struct (ref : Ref)
  | vector (v : Vec3)
  | uuid (u : Uuid)
  | text (t : RichText)
  | extension (object : HostObject)
deriving DecidableEq

namespace Value

instance : Inhabited Value := ⟨.number .zero⟩

def ofBool (b : Bool) : Value := .number (.ofBool b)

def kind : Value → ValueKind
  | number _ => .number
  | string _ => .string
  | list _ => .list
  | dict _ => .dict
  | struct _ => .struct
  | vector _ => .vector
  | uuid _ => .uuid
  | text _ => .text
  | extension _ => .extension

/-- The name of its kind, or the host's own name for an object of the host. -/
def typeName : Value → String
  | extension object => object.typeName
  | v => v.kind.name

/-- The container behind a handle. -/
def ref? : Value → Option Ref
  | list r | dict r | struct r => some r
  | _ => none

end Value

end EventScript
