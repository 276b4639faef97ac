import EventScript.Resource
import EventScript.RichText
import EventScript.Syntax

/-!
Compiled programs: the code of every schema, and the literals and callbacks of the host that all of
them share. Code refers to literals, locals, callbacks and schemas by their positions, and to places
in the same code by their offsets.
-/
namespace EventScript

inductive Instruction where
  | pushConstant (index : Nat)
  | loadLocal (slot : Nat)
  | storeLocal (slot : Nat)
  | pop
  | arithmetic (op : Arithmetic)
  | lessThan
  | atLeast
  /-- The top of the stack must be of this kind. -/
  | expect (kind : ValueKind)
  /-- Makes rich text of a string. -/
  | toText
  | jumpIfFalse (target : Nat)
  | jump (target : Nat)
  | native (op : NativeOp)
  | invokeHost (index argc : Nat) (returns : Bool)
  | call (function argc : Nat) (returns : Bool)
  | returnValue
  | returnVoid
deriving DecidableEq, Inhabited

abbrev Code := Array Instruction

/-- What a program can hold ready-made. Numbers are told apart by their words. -/
inductive Literal where
  | number (n : Number)
  | string (s : String)
  | text (t : RichText)
deriving DecidableEq, Hashable

def Literal.toValue : Literal → Value
  | number n => .number n
  | string s => .string s
  | text t => .text t

/-- A compiled schema. -/
structure Routine where
  name : String
  resource? : Option ResourceId
  params : List (String × StaticType)
  returns : StaticType
  code : Code
  /-- How many slots a call needs, those of the parameters included. -/
  localCount : Nat
  localNames : Array (Option String)

/-- What messages call a slot. -/
def Routine.localName (r : Routine) (slot : Nat) : String :=
  (r.localNames[slot]?.join).getD "<temporary>"

/-- Bounds for every run of a program. -/
structure Limits where
  /-- How many calls may be under way at once. -/
  callDepth : Nat := 64
  /-- How many operands one call may hold. -/
  stack : Nat := 256
deriving DecidableEq

structure Program where
  routines : Array Routine := #[]
  constants : Array Literal := #[]
  hosts : Array HostFunction := #[]
  limits : Limits := {}

namespace Program

/-- The program without schemas. -/
def empty (limits : Limits) : Program := { limits }

def index? (p : Program) (name : String) : Option Nat := p.routines.findIdx? (·.name = name)

/-- Of several schemas from one resource the last. -/
def resourceIndex? (p : Program) (id : ResourceId) : Option Nat :=
  (List.range p.routines.size).reverse.find? fun i =>
    (p.routines[i]?.bind (·.resource?)) = some id

def names (p : Program) : List String := p.routines.toList.map (·.name)

end Program

end EventScript
