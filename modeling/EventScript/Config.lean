import EventScript.Json
import EventScript.Program

/-!
Settings of the loader and the machine, with their JSON form and its schema.
-/
namespace EventScript

structure Config where
  version : Nat := 1
  /-- Where the sources of a namespace lie, below its directory. -/
  sourceRoot : String := "engine/dsl"
  /-- What names of sources end in, behind a point. -/
  extension : String := "aka"
  callDepth : Nat := 64
  stack : Nat := 256
deriving DecidableEq

namespace Config

/-- No configuration may be of a later version. -/
def latestVersion : Nat := 1

/-- No configuration allows deeper calls. -/
def maxCallDepth : Nat := 256

def limits (c : Config) : Limits := ⟨min c.callDepth maxCallDepth, c.stack⟩

inductive Key where
  | version | sourceRoot | extension | callDepth | stack
deriving DecidableEq

namespace Key

/-- In the order in which they are written. -/
def all : List Key := [version, sourceRoot, extension, callDepth, stack]

def name : Key → String
  | version => "version"
  | sourceRoot => "source_root"
  | extension => "extension"
  | callDepth => "max_call_depth"
  | stack => "max_stack"

def ofName? (name : String) : Option Key := all.find? (·.name = name)

end Key

def entry (c : Config) : Key → Json
  | .version => .number (.natural c.version)
  | .sourceRoot => .string c.sourceRoot
  | .extension => .string c.extension
  | .callDepth => .number (.natural c.callDepth)
  | .stack => .number (.natural c.stack)

def toJson (c : Config) : Json := .object (Key.all.map fun key => (key.name, c.entry key))

/-- The text of a configuration file. -/
def text (c : Config) : String := c.toJson.text

/-! ### The schema of the JSON form -/

def Key.description? : Key → Option String
  | version => none
  | sourceRoot => some "Directory under each namespace that holds script sources."
  | extension => some "Source file extension, without the dot."
  | callDepth =>
    some "Deepest schema-to-schema call chain before execution aborts. Values above [\x60MAX_CALL_DEPTH\x60] are clamped."
  | stack => some "Operand stack slots per call frame."

/-- The kind of value a key has. -/
def Key.form : Key → List (String × Json)
  | sourceRoot | extension => [("type", .string "string")]
  | version => whole "uint32"
  | callDepth | stack => whole "uint"
where
  whole (format : String) : List (String × Json) :=
    [("type", .string "integer"), ("format", .string format),
      ("minimum", .number (.float .zero))]

def Key.schema (key : Key) : Json :=
  .object ((key.description?.map fun text => ("description", Json.string text)).toList ++
    ("default", entry {} key) :: key.form)

/-- The schema of a configuration, its properties by name. -/
def schema : Json := .object [
  ("$schema", .string "http://json-schema.org/draft-07/schema#"),
  ("title", .string "ScriptConfig"),
  ("description", .string "Loader and runtime settings, stored as JSON."),
  ("type", .string "object"),
  ("properties", .object
    ([Key.extension, .callDepth, .stack, .sourceRoot, .version].map fun key =>
      (key.name, key.schema)))]

end Config

end EventScript
