import EventScript.Config
import EventScript.FileSystem

/-!
Sources in a directory: below the root a directory for each namespace, in it the source root, and
anywhere below that the sources, by their extension. The path of a source is its place below the
source root, without the extension.
-/
namespace EventScript

structure DirectorySource where
  root : String
  sourceRoot : String
  extension : String

namespace DirectorySource

def ofConfig (root : String) (c : Config) : DirectorySource := ⟨root, c.sourceRoot, c.extension⟩

/-- No path has more parts than this. -/
def maxParts : Nat := 4096

/-- The names in a directory, in ascending order. -/
def sortedNames [Monad m] (fs : FileSystem m) (path : String) : ExceptT SourceError m (List String) := do
  match ← fs.names path with
  | .ok names => return names.mergeSort
  | .error e => throw (.io path e)

def readSource [Monad m] (fs : FileSystem m) (id : ResourceId) (path : String) :
    ExceptT SourceError m SourceFile := do
  match ← fs.readText path with
  | .ok text => return ⟨id, text⟩
  | .error .notText => throw (.encoding path)
  | .error e => throw (.io path e)

/-- How a source's place ends, by the source's name without the extension. The point before the
extension goes last, but not if it leaves two points, which name the directory above. -/
def lastPart (stem : String) : String := if stem = "." then ".." else stem

/-- The sources in a directory of a namespace, whose place below the source root is `place`. -/
def collect [Monad m] (fs : FileSystem m) (d : DirectorySource) (space : String) :
    (maxParts : Nat) → (directory : String) → (place : List String) →
    ExceptT SourceError m (List SourceFile)
  | 0, _, _ => return []
  | maxParts + 1, directory, place => do
    let found ← (← sortedNames fs directory).mapM fun name => do
      let path := Path.join directory name
      if ← fs.isDirectory path then collect fs d space maxParts path (place ++ [name])
      else
        let (stem, extension) := Path.splitExtension name
        if extension = some d.extension then
          let place := place ++ [lastPart stem]
          return [← readSource fs ⟨space, "/".intercalate place⟩ path]
        else return []
    return found.flatten

/-- All sources: the namespaces in order, and what lies in each in the order of names. -/
def load [Monad m] (fs : FileSystem m) (d : DirectorySource) :
    ExceptT SourceError m (List SourceFile) := do
  let found ← (← sortedNames fs d.root).mapM fun space => do
    let directory := Path.join d.root space
    if ← fs.isDirectory directory then
      let base := Path.join directory d.sourceRoot
      if ← fs.isDirectory base then collect fs d space maxParts base [] else return []
    else return []
  return found.flatten

end DirectorySource

end EventScript
