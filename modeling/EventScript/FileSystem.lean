import EventScript.Source

/-!
What the library asks of a file system, and the rules for its paths.
-/
namespace EventScript

/-- Access to files by path, in some monad. -/
structure FileSystem (m : Type → Type) where
  /-- Whether anything is there. -/
  present : String → m Bool
  isDirectory : String → m Bool
  /-- What a directory holds, in any order. -/
  names : String → m (Except FileError (List String))
  read : String → m (Except FileError (List UInt8))
  write : String → List UInt8 → m (Except FileError Unit)
  /-- Makes a directory and those it lies in, where they are missing. -/
  makeDirectories : String → m (Except FileError Unit)
  rename : String → String → m (Except FileError Unit)

namespace FileSystem

def readText [Monad m] (fs : FileSystem m) (path : String) : m (Except FileError String) := do
  return (← fs.read path).bind fun bytes =>
    match String.fromUTF8? ⟨bytes.toArray⟩ with
    | some text => .ok text
    | none => .error .notText

end FileSystem

namespace Path

/-- The path of something below a directory. An absolute path stands for itself. -/
def join (directory path : String) : String :=
  if path.startsWith "/" || directory = "" then path
  else if directory.endsWith "/" then directory ++ path
  else directory ++ "/" ++ path

/-- What lies before the last slash, and what lies behind it. -/
def split (path : String) : String × String :=
  let cs := path.toList.reverse
  let name := cs.takeWhile (· != '/')
  (String.ofList (cs.drop (name.length + 1)).reverse, String.ofList name.reverse)

/-- A name without its extension, and the extension behind the last point, if there is one that does
not begin the name. -/
def splitExtension (name : String) : String × Option String :=
  let cs := name.toList.reverse
  let extension := cs.takeWhile (· != '.')
  match cs.drop (extension.length + 1) with
  | [] => (name, none)
  | stem =>
    if name = ".." then (name, none)
    else (String.ofList stem.reverse, some (String.ofList extension.reverse))

end Path

end EventScript
