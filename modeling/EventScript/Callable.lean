import EventScript.Machine

/-!
Entry points of a program. The initializer, which makes the constants, can be called like a schema;
a schema checks its arguments by count and kind before it runs.
-/
namespace EventScript

inductive Entry where
  | initializer
  | routine (index : Nat)
deriving DecidableEq

/-- An entry point together with its program, so that it stays good when programs change. -/
structure Callable where
  program : Program
  entry : Entry

/-- The initializer can be looked up under this name. -/
def initializerName : String := "$static_init"

namespace Program

def callable? (p : Program) (name : String) : Option Callable :=
  if name = initializerName then some ⟨p, .initializer⟩
  else (p.index? name).map fun i => ⟨p, .routine i⟩

def resourceCallable? (p : Program) (id : ResourceId) : Option Callable :=
  (p.resourceIndex? id).map fun i => ⟨p, .routine i⟩

end Program

/-- The first parameter whose kind an argument does not have is complained about. -/
def checkKinds : List (String × StaticType) → List Value → Except RuntimeError Unit
  | (name, type) :: params, v :: args =>
    match type.runtimeKind? with
    | some kind =>
      if v.kind = kind then checkKinds params args
      else throw (.mismatch (kind.name ++ " for parameter \x60" ++ name ++ "\x60") v)
    | none => checkKinds params args
  | _, _ => return ()

/-- Whether a schema takes these arguments. -/
def Routine.checkArguments (r : Routine) (args : List Value) : Except RuntimeError Unit :=
  if args.length = r.params.length then checkKinds r.params args
  else throw (.argumentCount r.name r.params.length args.length)

namespace Callable

def routine? (c : Callable) : Option Routine :=
  match c.entry with
  | .initializer => none
  | .routine i => c.program.routines[i]?

def name (c : Callable) : String := (c.routine?.map (·.name)).getD initializerName

def params (c : Callable) : List (String × StaticType) := (c.routine?.map (·.params)).getD []

/-- Calls the entry point; `none` if the fuel is spent before it is over. -/
def invoke (c : Callable) (fuel : Nat) (args : List Value) (world : World) :
    Option (Answer × World) :=
  match c.entry with
  | .initializer => some (.ok none, world)
  | .routine i =>
    match c.program.routines[i]? with
    | none => some (.error (.malformed .functionIndex), world)
    | some r =>
      match r.checkArguments args with
      | .error e => some (.error e, world)
      | .ok () => c.program.execute fuel i args world

/-- Whether a call gets as far as to need the program's constants. -/
def initializes (c : Callable) (args : List Value) : Bool :=
  match c.entry with
  | .initializer => true
  | .routine i =>
    match c.program.routines[i]? with
    | none => false
    | some r => (r.checkArguments args).isOk && c.program.initializedBy i

end Callable

/-- What is said when a name or resource is no entry point. -/
def unknownEntry (name : String) : String := "no schema named \x60" ++ name ++ "\x60"

/-- A program with the mark whether its constants have been made. -/
structure Loaded where
  program : Program
  initialized : Bool := false

namespace Loaded

def makeConstants (l : Loaded) : Loaded := { l with initialized := true }

def invoke (l : Loaded) (entry : Entry) (fuel : Nat) (args : List Value) (world : World) :
    Option (Answer × World) × Loaded :=
  let c : Callable := ⟨l.program, entry⟩
  (c.invoke fuel args world, { l with initialized := l.initialized || c.initializes args })

/-- Calls a schema by its position, without a look at the arguments. -/
def execute (l : Loaded) (fuel index : Nat) (args : List Value) (world : World) :
    Option (Answer × World) × Loaded :=
  (l.program.execute fuel index args world,
    { l with initialized := l.initialized || l.program.initializedBy index })

end Loaded

end EventScript
