import EventScript.CommandLine.Arguments
import EventScript.Config.File
import EventScript.Document
import EventScript.Manager
import EventScript.Operation.Standard
import EventScript.Source.Directory

/-!
What each command does. A command answers with all that it writes and its exit code; the first thing
that goes wrong ends it, and is all that is written then.
-/
namespace EventScript

/-- What a command leaves behind besides files. -/
structure Output where
  code : Nat := 0
  out : String := ""
  err : String := ""

namespace Json

mutual

/-- The script value of a JSON value: numbers for truth values, dicts for objects. Null has none. -/
def toDatum : Json → Except String Datum
  | .null => .error "null has no script value"
  | .bool b => .ok (.number (.ofBool b))
  | .number n => .ok (.number n.toNumber)
  | .string s => .ok (.string s)
  | .array items => (itemData items).map .list
  | .object entries => do
    let data ← entryData entries
    return .dict (data.map fun (key, d) => (.string key, d))

def itemData : List Json → Except String (List Datum)
  | [] => .ok []
  | j :: js => do
    let d ← toDatum j
    let ds ← itemData js
    return d :: ds

def entryData : List (String × Json) → Except String (List (String × Datum))
  | [] => .ok []
  | (key, j) :: es => do
    let d ← toDatum j
    let ds ← entryData es
    return (key, d) :: ds

end

end Json

namespace CommandLine

/-- A command over a file system. It ends early with an output. -/
abbrev Task (m : Type → Type) := ExceptT Output m

def lines (texts : List String) : String := texts.foldl (fun text line => text ++ line ++ "\n") ""

def fail [Monad m] (message : String) : Task m α :=
  throw { code := 1, err := lines ["Error: " ++ message] }

def orFail [Monad m] (message : ε → String) : Except ε α → Task m α
  | .ok a => return a
  | .error e => fail (message e)

/-- The place of a complaint is told where its source is at hand. -/
def reportCompileError [Monad m] (e : CompileError) (files : List SourceFile) : Task m α :=
  let text := match e.sourceAmong? files with
    | some file => e.format file.text
    | none => e.display
  throw { code := 1, err := lines [text] }

def check [Monad m] (fs : FileSystem m) (c : Config) (directory : String) : Task m Output := do
  let loaded ← (DirectorySource.load fs (.ofConfig directory c)).run
  let files ← orFail SourceError.message loaded
  match Program.ofCorpus .standard c.limits files with
  | .error e => reportCompileError e files
  | .ok p =>
    let names := p.names.mergeSort
    return { out := lines (names.map ("  " ++ ·) ++
      [s!"ok: {names.length} schemas from {files.length} files"]) }

/-- A word is a number if it can be. -/
def argument (word : String) : Value :=
  match Number.read? word with
  | some n => .number n
  | none => .string word

/-- A schema is named by its resource if the name is one. -/
def findSchema (m : Manager) (name : String) : Option Handle :=
  match ResourceId.ofText? name with
  | some id => m.resourceHandle? id
  | none => m.handle? name

def run [Monad m] (fs : FileSystem m) (fuel : Nat) (ids : Nat → Uuid) (c : Config)
    (directory schema : String) (args : List String) : Task m Output := do
  let source := DirectorySource.ofConfig directory c
  let (report, manager) := (Manager.new .standard c).reload (← (DirectorySource.load fs source).run)
  match report with
  | .error (.compile e) =>
    match ← (DirectorySource.load fs source).run with
    | .ok files => reportCompileError e files
    | .error _ => fail (ReloadError.compile e).message
  | .error e => fail e.message
  | .ok _ =>
    match findSchema manager schema with
    | none => fail (unknownEntry schema)
    | some h =>
      match (manager.invoke h fuel (args.map argument) { ids }).1 with
      | some (.ok (some v), world) => return { out := lines [world.heap.display v] }
      | some (.ok none, _) => return { out := lines ["(void)"] }
      | some (.error e, _) => fail e.message
      | none => fail "the schema has run for too long"

/-- Extends a text with blanks to a width. -/
def padRight (width : Nat) (text : String) : String :=
  text ++ String.ofList (List.replicate (width - text.length) ' ')

/-- Operations under the categories that change along the way. -/
def listOperations (category : String) : List Operation → List String
  | [] => []
  | op :: ops =>
    let heading := if op.category = category then [] else [op.category ++ ":"]
    heading ++ ("  " ++ padRight 40 op.signature ++ " " ++ op.description) ::
      listOperations op.category ops

def dump [Monad m] (fs : FileSystem m) (file : String) : Task m Output := do
  let bytes ← orFail FileError.message (← fs.read file)
  let doc ← orFail CodecError.message (Document.decode bytes)
  return { out := lines (doc.entries.map fun (key, d) => key ++ " = " ++ d.display) }

/-- The document of a JSON object. -/
def document [Monad m] : Json → Task m Document
  | .object entries => do
    let entries ← entries.mapM fun (key, j) => do
      return (key, ← orFail (key ++ ": " ++ ·) j.toDatum)
    return .ofList entries
  | _ => fail "document input must be a JSON object"

def pack [Monad m] (fs : FileSystem m) (input output : String) : Task m Output := do
  let text ← orFail FileError.message (← fs.readText input)
  let json ← orFail Json.Error.message (Json.ofText text)
  let doc ← document json
  let bytes ← orFail CodecError.message doc.encode
  orFail FileError.message (← fs.write output bytes)
  return { err := lines [s!"wrote {doc.size} entries ({bytes.length} bytes)"] }

/-- Carries out a command. -/
def perform [Monad m] (fs : FileSystem m) (fuel : Nat) (ids : Nat → Uuid) (line : CommandLine) :
    Task m Output := do
  let c ← match line.config? with
    | some path => do
      let loaded : Except ConfigError Config ← ExceptT.lift (Config.load fs path)
      orFail ConfigError.message loaded
    | none => pure {}
  match line.command with
  | .check directory => check fs c directory
  | .run directory schema args => run fs fuel ids c directory schema args
  | .operations => return { out := lines (listOperations "" Operation.standard) }
  | .dump file => dump fs file
  | .pack input output => pack fs input output
  | .schema => return { out := lines [Config.schema.text] }

def usage : String := lines
  ["Event-script compiler and tools", "",
    "Usage: akac [--config <CONFIG>] [-v | --verbose] <COMMAND>", "",
    "Commands:", "  check <DIR>", "  run <DIR> <SCHEMA> [ARGS]...", "  ops", "  doc-dump <FILE>",
    "  doc-pack <INPUT> <OUTPUT>", "  schema"]

/-- Reads a command line and carries it out. -/
def respond [Monad m] (fs : FileSystem m) (fuel : Nat) (ids : Nat → Uuid) (words : List String) :
    m Output := do
  match ofWords words with
  | .error .misuse => return { code := 2, err := usage }
  | .error .help => return { out := usage }
  | .error .version => return { out := lines ["akac 0.1.0"] }
  | .ok line =>
    match ← (perform fs fuel ids line).run with
    | .ok output | .error output => return output

end CommandLine

end EventScript
