import EventScript.Machine.Native

/-!
The stack machine. `step` carries out one instruction of the running call; `run` repeats it until
the first call returns or something fails, or until the fuel is spent.
-/
namespace EventScript

/-- What a call answers: nothing if its schema is void. -/
abbrev Answer := Except RuntimeError (Option Value)

namespace Machine

/-- Goes on with the innermost waiting call, or answers if none waits. -/
def leave (limit : Nat) (result : Option Value) : Machine (Option (Option Value)) := do
  match (← get).callers with
  | [] => return some result
  | (frame, returns) :: callers =>
    modify fun s => { s with frame, callers }
    if returns then
      match result with
      | some v => push limit v
      | none => fault .missingResult
    return none

def binary (limit : Nat) (op : Number → Number → Value) : Machine Unit := do
  let b ← popNumber
  let a ← popNumber
  push limit (op a b)

end Machine

def Arithmetic.apply : Arithmetic → Number → Number → Number
  | add => .add
  | sub => .sub
  | mul => .mul
  | div => .div

open Machine in
/-- Carries out an instruction within the running call. Calls and returns are `advance`'s. -/
def Program.perform (p : Program) : Instruction → Machine Unit
  | .pushConstant i => do
    match p.constants[i]? with
    | some l => push p.limits.stack l.toValue
    | none => fault .constantIndex
  | .loadLocal slot => do
    let frame := (← get).frame
    match frame.locals[slot]? with
    | some (some v) => push p.limits.stack v
    | some none => throw (.unassigned frame.routine.name (frame.routine.localName slot))
    | none => fault .localSlot
  | .storeLocal slot => do
    let v ← pop
    if slot < (← get).frame.locals.size then
      modify fun s => { s with frame.locals := s.frame.locals.setIfInBounds slot (some v) }
    else fault .localSlot
  | .pop => do let _ ← pop
  | .arithmetic op => binary p.limits.stack fun a b => .number (op.apply a b)
  | .lessThan => binary p.limits.stack fun a b => .ofBool (a.below b)
  | .atLeast => binary p.limits.stack fun a b => .ofBool (a.atLeast b)
  | .expect kind => do
    match (← get).frame.stack with
    | [] => fault .stackUnderflow
    | v :: _ => if v.kind ≠ kind then throw (.mismatch kind.name v)
  | .toText => do
    match ← pop with
    | .string s => push p.limits.stack (.text (.plain s))
    | .text t => push p.limits.stack (.text t)
    | v => throw (.mismatch "string" v)
  | .jumpIfFalse target => do
    match ← pop with
    | .number n => if !n.truthy then jump target
    | v => throw (.mismatch "bool" v)
  | .jump target => Machine.jump target
  | .native op => do
    if let some v ← op.run then push p.limits.stack v
  | .invokeHost index argc returns => do
    let args ← popMany argc
    match p.hosts[index]? with
    | some call =>
      let v ← onHeap (call args)
      if returns then push p.limits.stack v
    | none => fault .hostIndex
  | .call .. | .returnValue | .returnVoid => return ()

open Machine in
/-- Carries out the next instruction. Answers when the first call is over. -/
def Program.advance (p : Program) : Machine (Option (Option Value)) := do
  let frame := (← get).frame
  match frame.routine.code[frame.next]? with
  | none => fault .endOfCode
  | some i =>
    jump (frame.next + 1)
    match i with
    | .call function argc returns => do
      let args ← popMany argc
      let callee ← p.enter ((← get).callers.length + 1) function args
      modify fun s => { s with frame := callee, callers := (s.frame, returns) :: s.callers }
      return none
    | .returnValue => do
      let v ← pop
      leave p.limits.stack (some v)
    | .returnVoid => leave p.limits.stack none
    | i => do
      p.perform i
      return none

inductive Progress where
  | running (s : State)
  | finished (answer : Answer) (world : World)

namespace Program

def step (p : Program) (s : State) : Progress :=
  match p.advance.run.run s with
  | (.ok none, s) => .running s
  | (.ok (some result), s) => .finished (.ok result) s.world
  | (.error e, s) => .finished (.error e) s.world

/-- `none` if the run is not over after `fuel` instructions. -/
def run (p : Program) : (fuel : Nat) → State → Option (Answer × World)
  | 0, _ => none
  | fuel + 1, s =>
    match p.step s with
    | .running s => run p fuel s
    | .finished answer world => some (answer, world)

/-- Calls a schema by its position. Arguments are taken as they are. -/
def execute (p : Program) (fuel index : Nat) (args : List Value) (world : World) :
    Option (Answer × World) :=
  match p.enter 0 index args with
  | .ok frame => p.run fuel { frame, world }
  | .error e => some (.error e, world)

/-- Whether a call of the schema at this position gets as far as to need the constants. -/
def initializedBy (p : Program) (index : Nat) : Bool := (p.enter 0 index []).isOk

end Program

end EventScript
