import EventScript.Heap

/-!
Why a run stops early.
-/
namespace EventScript

/-- Ways in which code breaks the promises of compiled code. -/
inductive CodeFault where
  | functionIndex | endOfCode | constantIndex | localSlot | stackUnderflow | hostIndex
  | missingResult
deriving DecidableEq

def CodeFault.message : CodeFault → String
  | functionIndex => "function index out of range"
  | endOfCode => "fell off the end of a function"
  | constantIndex => "constant index out of range"
  | localSlot => "local slot out of range"
  | stackUnderflow => "stack underflow"
  | hostIndex => "host function index out of range"
  | missingResult => "callee returned no value"

inductive RuntimeError where
  | typeCheck (expected found : String)
  | container (error : ContainerError)
  | structArity (requested : Number)
  | unassigned (function name : String)
  | listIndex (index : Number) (length : Nat)
  | missingKey (key : String)
  | invalidColor (color : String)
  | stackOverflow (limit : Nat)
  | callDepth (limit : Nat)
  | argumentCount (function : String) (expected found : Nat)
  /-- Raised by an operation of the host. -/
  | host (operation message : String)
  | malformed (fault : CodeFault)
deriving DecidableEq

namespace RuntimeError

/-- A value is not of the expected kind. -/
def mismatch (expected : String) (found : Value) : RuntimeError :=
  .typeCheck expected found.typeName

/-- The word for the reason alone. -/
def label : RuntimeError → String
  | typeCheck _ _ => "TypeCheck"
  | container (.cycle _) => "Cycle"
  | container _ => "Index"
  | structArity _ => "StructArity"
  | unassigned _ _ => "Unassigned"
  | listIndex _ _ => "ListIndex"
  | missingKey _ => "MissingKey"
  | invalidColor _ => "InvalidColor"
  | stackOverflow _ => "StackOverflow"
  | callDepth _ => "CallDepth"
  | argumentCount _ _ _ => "ArgumentCount"
  | host _ _ => "Host"
  | malformed _ => "Malformed"

def message : RuntimeError → String
  | typeCheck expected found => s!"expected {expected}, found {found}"
  | container error => error.message
  | structArity n => s!"struct arity {n.display} must be a whole number from 0 to 65535"
  | unassigned function name =>
    "\x60" ++ name ++ "\x60 is read in \x60" ++ function ++ "\x60 before it is assigned"
  | listIndex index length =>
    s!"list index {index.display} is out of range for length {length}"
  | missingKey key => s!"key {key} is not present in dict"
  | invalidColor color => "invalid color \x60" ++ color ++ "\x60, expected #rrggbb"
  | stackOverflow limit => s!"operand stack exceeded {limit} slots"
  | callDepth limit => s!"call depth exceeded {limit}"
  | argumentCount function expected found =>
    "\x60" ++ function ++ s!"\x60 takes {expected} arguments, {found} given"
  | host operation message => s!"{operation}: {message}"
  | malformed fault => "malformed bytecode: " ++ fault.message

end RuntimeError

end EventScript
