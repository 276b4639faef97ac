import EventScript.Machine.Error
import EventScript.StaticType
import EventScript.Table

/-!
Operations that scripts can call: those the machine carries out itself, and those of the host.
-/
namespace EventScript

/-- What the machine carries out itself. -/
inductive NativeOp where
  | listNew | listAppend | listGet | listSize
  | dictNew | dictPut | dictGet | dictHas
  | structNew | structGet | structSet
  | vec3New | vec3Add | vec3Multiply | vec3X | vec3Y | vec3Z
  | textNew | textColor | textContents | textAdd
  | stringConcat | stringLength | numberToString | uuidRandom
deriving DecidableEq

def NativeOp.all : List NativeOp :=
  [.listNew, .listAppend, .listGet, .listSize, .dictNew, .dictPut, .dictGet, .dictHas,
    .structNew, .structGet, .structSet, .vec3New, .vec3Add, .vec3Multiply, .vec3X, .vec3Y, .vec3Z,
    .textNew, .textColor, .textContents, .textAdd, .stringConcat, .stringLength, .numberToString,
    .uuidRandom]

/-- A callback of the host: from the arguments and the heap to a result and the heap after it. -/
abbrev HostFunction := List Value → Heap → Except RuntimeError Value × Heap

/-- How an operation is carried out. -/
inductive Action where
  | native (op : NativeOp)
  | host (call : HostFunction)

structure Field where
  name : String
  type : StaticType
deriving DecidableEq

structure Operation where
  name : String
  fields : List Field
  returns : StaticType
  action : Action
  category : String
  description : String

def Operation.signature (op : Operation) : String :=
  let fields := op.fields.map fun f => s!"{f.name} {f.type.name}"
  op.name ++ "(" ++ ", ".intercalate fields ++ ") -> " ++ op.returns.name

/-- The operations scripts can see, by name. -/
abbrev Registry := Table String Operation

namespace Registry

def empty : Registry := Table.empty

/-- An operation of the same name is replaced where it stands. -/
def register (r : Registry) (op : Operation) : Registry := r.insert op.name op

/-- Registers a callback of the host. -/
def registerHost (r : Registry) (name : String) (fields : List Field) (returns : StaticType)
    (call : HostFunction) : Registry :=
  r.register ⟨name, fields, returns, .host call, "host", ""⟩

end Registry

end EventScript
