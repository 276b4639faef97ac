import EventScript.Heap
import EventScript.Machine.Error
import EventScript.Program

/-!
The state of a run: the call that is carried out, the calls that wait for it, and the world that
outlives the run. A failing run keeps what it has done to the world.
-/
namespace EventScript

structure World where
  heap : Heap := Heap.empty
  /-- Random identifiers in the order in which they are drawn. -/
  ids : Nat → Uuid
  drawn : Nat := 0

/-- A call under way. -/
structure Frame where
  routine : Routine
  /-- The offset of the next instruction. -/
  next : Nat := 0
  /-- Slots hold nothing until something is stored in them. -/
  locals : Array (Option Value)
  /-- Operands, the top first. -/
  stack : List Value := []

structure State where
  frame : Frame
  /-- The calls that wait, the innermost first, and whether each takes a result. -/
  callers : List (Frame × Bool) := []
  world : World

abbrev Machine := ExceptT RuntimeError (StateM State)

/-- Slots for a call: the arguments first, as many as there is room for. -/
def Routine.slots (r : Routine) (args : List Value) : Array (Option Value) :=
  ((args.take r.localCount).map some ++ List.replicate (r.localCount - args.length) none).toArray

/-- The frame of a new call, made while `depth` calls are under way. -/
def Program.enter (p : Program) (depth index : Nat) (args : List Value) :
    Except RuntimeError Frame :=
  if depth ≥ p.limits.callDepth then .error (.callDepth p.limits.callDepth)
  else match p.routines[index]? with
    | some r => .ok { routine := r, locals := r.slots args }
    | none => .error (.malformed .functionIndex)

namespace Machine

def fault (f : CodeFault) : Machine α := throw (.malformed f)

def pop : Machine Value := do
  match (← get).frame.stack with
  | [] => fault .stackUnderflow
  | v :: rest =>
    modify fun s => { s with frame.stack := rest }
    return v

/-- The stack of a call has a limited height. -/
def push (limit : Nat) (v : Value) : Machine Unit := do
  if (← get).frame.stack.length ≥ limit then throw (.stackOverflow limit)
  modify fun s => { s with frame.stack := v :: s.frame.stack }

/-- The `count` topmost operands, in the order in which they were pushed. -/
def popMany (count : Nat) : Machine (List Value) := do
  let stack := (← get).frame.stack
  if stack.length < count then fault .stackUnderflow
  modify fun s => { s with frame.stack := s.frame.stack.drop count }
  return (stack.take count).reverse

def jump (target : Nat) : Machine Unit := modify fun s => { s with frame.next := target }

def popNumber : Machine Number := do
  match ← pop with
  | .number n => return n
  | v => throw (.mismatch "number" v)

def popString : Machine String := do
  match ← pop with
  | .string s => return s
  | v => throw (.mismatch "string" v)

def popList : Machine Ref := do
  match ← pop with
  | .list r => return r
  | v => throw (.mismatch "list" v)

def popDict : Machine Ref := do
  match ← pop with
  | .dict r => return r
  | v => throw (.mismatch "dict" v)

def popStruct : Machine Ref := do
  match ← pop with
  | .struct r => return r
  | v => throw (.mismatch "struct" v)

def popVector : Machine Vec3 := do
  match ← pop with
  | .vector v => return v
  | v => throw (.mismatch "vec3" v)

def popText : Machine RichText := do
  match ← pop with
  | .text t => return t
  | v => throw (.mismatch "text" v)

/-- Looks at the heap. -/
def inspect (look : Heap → α) : Machine α := return look (← get).world.heap

/-- Changes the heap. What has been changed stays, also if the answer is an error. -/
def onHeap (act : Heap → Except RuntimeError α × Heap) : Machine α := do
  let result ← modifyGet fun ⟨frame, callers, ⟨heap, ids, drawn⟩⟩ =>
    let (result, heap) := act heap
    (result, ⟨frame, callers, ⟨heap, ids, drawn⟩⟩)
  match result with
  | .ok a => return a
  | .error e => throw e

/-- The same for the heap's own operations. -/
def onContainer (act : Heap → Except ContainerError α × Heap) : Machine α :=
  onHeap fun heap => match act heap with
    | (.ok a, heap) => (.ok a, heap)
    | (.error e, heap) => (.error (.container e), heap)

def drawId : Machine Uuid := modifyGet fun s =>
  (s.world.ids s.world.drawn, { s with world.drawn := s.world.drawn + 1 })

end Machine

end EventScript
