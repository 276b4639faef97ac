import EventScript.Callable
import EventScript.Config
import EventScript.Corpus

/-!
The program in use. A reload compiles all sources anew and puts the result in place of the program
before; one that fails leaves everything as it was, and while one is under way no other begins.
Entry points that were handed out keep their own program.
-/
namespace EventScript

inductive ReloadError where
  | source (error : SourceError)
  | compile (error : CompileError)
  | inProgress
deriving DecidableEq

def ReloadError.message : ReloadError → String
  | source e => s!"failed to load sources: {e.message}"
  | compile e => s!"compile failed: {e.display}"
  | inProgress => "another reload is already in progress"

structure ReloadReport where
  generation : Nat
  schemas : Nat
deriving DecidableEq

structure Manager where
  registry : Registry
  config : Config
  installed : Loaded
  /-- How many reloads have succeeded. -/
  generation : Nat := 0
  /-- Whether a reload is under way. -/
  busy : Bool := false

/-- An entry point, and the generation whose program it is of. -/
structure Handle where
  generation : Nat
  callable : Callable

namespace Manager

/-- Begins with the empty program. -/
def new (registry : Registry) (config : Config) : Manager :=
  { registry, config, installed := { program := .empty config.limits } }

/-- Begins a reload, which has its sources loaded next. -/
def beginReload (m : Manager) : Except ReloadError Manager :=
  if m.busy then .error .inProgress else .ok { m with busy := true }

def build (m : Manager) (loaded : Except SourceError (List SourceFile)) :
    Except ReloadError Program := do
  let files ← loaded.mapError .source
  (Program.ofCorpus m.registry m.config.limits files).mapError .compile

/-- Puts a program, with its constants made, in the place of the one before. -/
def install (m : Manager) (p : Program) : ReloadReport × Manager :=
  let generation := m.generation + 1
  let installed := ({ program := p : Loaded }).makeConstants
  (⟨generation, p.routines.size⟩, { m with installed, generation })

/-- Ends the reload under way with what loading gave. -/
def endReload (m : Manager) (loaded : Except SourceError (List SourceFile)) :
    Except ReloadError ReloadReport × Manager :=
  let m := { m with busy := false }
  match m.build loaded with
  | .ok p =>
    let (report, m) := m.install p
    (.ok report, m)
  | .error e => (.error e, m)

def reload (m : Manager) (loaded : Except SourceError (List SourceFile)) :
    Except ReloadError ReloadReport × Manager :=
  match m.beginReload with
  | .ok m => m.endReload loaded
  | .error e => (.error e, m)

def handle? (m : Manager) (name : String) : Option Handle :=
  (m.installed.program.callable? name).map fun c => ⟨m.generation, c⟩

def resourceHandle? (m : Manager) (id : ResourceId) : Option Handle :=
  (m.installed.program.resourceCallable? id).map fun c => ⟨m.generation, c⟩

/-- Whether a handle is of the program in use. -/
def isCurrent (m : Manager) (h : Handle) : Bool := h.generation = m.generation

/-- Calls an entry point, of the program in use or of one before. -/
def invoke (m : Manager) (h : Handle) (fuel : Nat) (args : List Value) (world : World) :
    Option (Answer × World) × Manager :=
  let result := h.callable.invoke fuel args world
  if m.isCurrent h && h.callable.initializes args then
    (result, { m with installed := m.installed.makeConstants })
  else (result, m)

end Manager

end EventScript
