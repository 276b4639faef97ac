import EventScript.StaticType
import EventScript.Table

/-!
The locals of one schema body. The first write declares a variable for all that follows; variables
and the temporaries of loops share one sequence of slots.
-/
namespace EventScript

structure Local where
  type : StaticType
  slot : Nat
deriving DecidableEq

structure Scope where
  locals : Table String Local := Table.empty
  /-- How many slots are given out, to names or not. -/
  slotCount : Nat := 0

namespace Scope

def empty : Scope := {}

/-- No more slots than this. -/
def maxSlots : Nat := 65535

def find? (s : Scope) (name : String) : Option Local := s.locals.find? name

/-- A slot without a name. -/
def temporary? (s : Scope) : Option (Nat × Scope) :=
  if s.slotCount < maxSlots then some (s.slotCount, { s with slotCount := s.slotCount + 1 })
  else none

/-- The local of this name, declared with the type if there is none yet. -/
def declare? (s : Scope) (name : String) (type : StaticType) : Option (Local × Scope) :=
  match s.find? name with
  | some l => some (l, s)
  | none =>
    let ⟨locals, slotCount⟩ := s
    if slotCount < maxSlots then
      let l : Local := ⟨type, slotCount⟩
      some (l, ⟨locals.insert name l, slotCount + 1⟩)
    else none

/-- The name of each slot; temporaries have none. -/
def slotNames (s : Scope) : Array (Option String) :=
  s.locals.entries.foldl (fun names (name, l) => names.setIfInBounds l.slot (some name))
    (Array.replicate s.slotCount none)

end Scope

end EventScript
