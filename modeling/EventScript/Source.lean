import EventScript.Resource

/-!
Files of script source, and why they cannot be had.
-/
namespace EventScript

structure SourceFile where
  id : ResourceId
  text : String
deriving DecidableEq

/-- Why the file system refuses a file. -/
inductive FileError where
  | notFound | notDirectory | isDirectory | nameTooLong
  /-- The bytes are no text. -/
  | notText
  /-- Any other reason, worded by the system. -/
  | other (reason : String)
deriving DecidableEq

def FileError.message : FileError → String
  | notFound => "No such file or directory (os error 2)"
  | notDirectory => "Not a directory (os error 20)"
  | isDirectory => "Is a directory (os error 21)"
  | nameTooLong => "File name too long (os error 36)"
  | notText => "stream did not contain valid UTF-8"
  | other reason => reason

inductive SourceError where
  | io (path : String) (error : FileError)
  | invalidId (text : String)
  /-- Neither bytes nor names may be other than UTF-8. -/
  | encoding (path : String)
deriving DecidableEq

namespace SourceError

/-- The word for the reason alone. -/
def label : SourceError → String
  | io _ _ => "Io"
  | invalidId _ => "InvalidId"
  | encoding _ => "Encoding"

def message : SourceError → String
  | io path error => s!"I/O error at {path}: {error.message}"
  | invalidId text => "invalid resource id \x60" ++ text ++ "\x60 (expected namespace:path)"
  | encoding path => s!"source file {path} is not valid UTF-8 or has a non UTF-8 path"

/-- Reads a resource id. -/
def resourceId (text : String) : Except SourceError ResourceId :=
  match ResourceId.ofText? text with
  | some id => .ok id
  | none => .error (.invalidId text)

end SourceError

end EventScript
