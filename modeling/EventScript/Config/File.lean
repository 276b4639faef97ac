import EventScript.Config
import EventScript.FileSystem
import EventScript.Json.Reader
import EventScript.Text.Quoted

/-!
Configuration files. Settings stand in an object by name or in an array in order; those that are
missing have their defaults, names that are not known are passed over, and none may be given twice.
-/
namespace EventScript

inductive ConfigError where
  | io (error : FileError)
  | json (error : Json.Error)
  | version (found : Nat)
deriving DecidableEq

def ConfigError.message : ConfigError → String
  | io e => s!"I/O error: {e.message}"
  | json e => s!"JSON error: {e.message}"
  | version found =>
    s!"unsupported config version {found} (expected at most {Config.latestVersion})"

namespace Config

open Json.Reader

/-- What messages call a number that is not wanted. -/
def describeNumber : Json.Numeral → String
  | .float x => "floating point \x60" ++ Json.floatText x ++ "\x60"
  | n => "integer \x60" ++ n.text ++ "\x60"

/-- What messages call the next value, which is read unless it is an array or object. -/
def describeNext : Json.Reader String := do
  match ← peek with
  | some '[' => return "sequence"
  | some '\x7b' => return "map"
  | _ =>
    match ← value false 1 with
    | .bool b => return "boolean \x60" ++ toString b ++ "\x60"
    | .number n => return describeNumber n
    | .string s => return "string " ++ Text.quoted s
    | _ => return "null"

def refuseType (expected found : String) : Json.Reader α :=
  fail (.unwanted s!"invalid type: {found}, expected {expected}")

/-- A whole number below a bound. -/
def natural (bound : Nat) (expected : String) : Json.Reader Nat := do
  match ← space with
  | none => failNext .endInValue
  | some c =>
    if c = '-' || c.isDigit then
      match ← value false 1 with
      | .number (.float x) => refuseType expected (describeNumber (.float x))
      | .number (.natural n) =>
        if n < bound then return n
        else refuseValue (.natural n)
      | .number n => refuseValue n
      | _ => fail .expectedValue
    else refuseType expected (← describeNext)
where
  refuseValue (n : Json.Numeral) : Json.Reader Nat :=
    fail (.unwanted s!"invalid value: {describeNumber n}, expected {expected}")

def string : Json.Reader String := do
  match ← space with
  | none => failNext .endInValue
  | some '"' => Json.Reader.string false
  | some _ => refuseType "a string" (← describeNext)

def readEntry (c : Config) : Key → Json.Reader Config
  | .version => return { c with version := ← natural 0x100000000 "u32" }
  | .sourceRoot => return { c with sourceRoot := ← string }
  | .extension => return { c with extension := ← string }
  | .callDepth => return { c with callDepth := ← natural 0x10000000000000000 "usize" }
  | .stack => return { c with stack := ← natural 0x10000000000000000 "usize" }

/-- The entries of an object; `given` are the keys that have had their value. -/
def readObject (first : Bool) (given : List Key) (c : Config) : (fuel : Nat) → Json.Reader Config
  | 0 => return c
  | fuel + 1 => do
    if ← anotherEntry false first then
      match Key.ofName? (← Json.Reader.string false) with
      | none =>
        colon
        skip
        readObject false given c fuel
      | some key =>
        if key ∈ given then
          if (← space) = some '\x7d' then advance 1
          fail (.unwanted ("duplicate field \x60" ++ key.name ++ "\x60"))
        colon
        readObject false (key :: given) (← readEntry c key) fuel
    else return c

/-- The items of an array, one for each key. -/
def readArray (first : Bool) (c : Config) : List Key → Json.Reader Config
  | [] => do
    match ← space with
    | some ']' => advance 1
    | some ',' =>
      advance 1
      if (← space) = some ']' then failNext .trailingComma else failNext .trailingCharacters
    | some _ => failNext .trailingCharacters
    | none => failNext .endInList
    return c
  | key :: keys => do
    match ← space with
    | none => failNext .endInList
    | some ']' =>
      advance 1
      return c
    | some d =>
      if !first then
        if d ≠ ',' then failNext .expectedListEnd
        advance 1
        match ← space with
        | some ']' => failNext .trailingComma
        | none => failNext .endInValue
        | _ => pure ()
      readArray false (← readEntry c key) keys

def reader : Json.Reader Config := do
  let length ← read
  match ← space with
  | none => failNext .endInValue
  | some '[' =>
    advance 1
    readArray true {} Key.all
  | some '\x7b' =>
    advance 1
    readObject true [] {} length
  | some _ => refuseType "struct ScriptConfig" (← describeNext)

def ofText (text : String) : Except ConfigError Config := do
  let c ← (reader.runAll text).mapError .json
  if c.version > latestVersion then throw (.version c.version)
  return c

/-- The configuration in a file, or the default one if there is no file. -/
def load [Monad m] (fs : FileSystem m) (path : String) : m (Except ConfigError Config) := do
  if ← fs.present path then
    return ((← fs.readText path).mapError .io).bind ofText
  else return .ok {}

/-- Writes a configuration to a file beside the one it then replaces. -/
def save [Monad m] (fs : FileSystem m) (path : String) (c : Config) :
    ExceptT ConfigError m Unit := do
  let draft := path ++ ".tmp"
  ExceptT.mk (return (← fs.makeDirectories (Path.split path).1).mapError .io)
  ExceptT.mk (return (← fs.write draft c.text.toUTF8.data.toList).mapError .io)
  ExceptT.mk (return (← fs.rename draft path).mapError .io)

end Config

end EventScript
