import EventScript.FileSystem

/-!
Files in memory, as a tree. A path is followed part by part; a path that ends in a slash must lead
to a directory.
-/
namespace EventScript

inductive FileTree where
  | file (bytes : List UInt8)
  | directory (entries : List (String × FileTree))
deriving Inhabited

namespace FileTree

def empty : FileTree := .directory []

/-- A path has fewer bytes than this. -/
def pathLimit : Nat := 4096

/-- A name has at most this many bytes. -/
def maxName : Nat := 255

def isDirectory : FileTree → Bool
  | file _ => false
  | directory _ => true

def entries : FileTree → List (String × FileTree)
  | file _ => []
  | directory entries => entries

def child? (t : FileTree) (name : String) : Option FileTree :=
  (t.entries.find? (·.1 = name)).map (·.2)

/-- Puts an entry into a directory, instead of one of the same name. -/
def putEntry (name : String) (child : FileTree) :
    List (String × FileTree) → List (String × FileTree)
  | [] => [(name, child)]
  | (n, t) :: es => if n = name then (name, child) :: es else (n, t) :: putEntry name child es

/-- A place in a tree: what is there, and the directories it lies in, innermost first, each with
the name that leads on. -/
structure Place where
  above : List (FileTree × String)
  here : FileTree

namespace Place

/-- Follows one part of a path. A directory that is missing is made if `make` says so. -/
def step (make : Bool) (p : Place) (part : String) : Except FileError Place :=
  if !p.here.isDirectory then .error .notDirectory
  else if part = "" || part = "." then .ok p
  else if part = ".." then
    match p.above with
    | [] => .ok p
    | (parent, _) :: above => .ok ⟨above, parent⟩
  else if part.utf8ByteSize > maxName then .error .nameTooLong
  else
    match p.here.child? part with
    | some child => .ok ⟨(p.here, part) :: p.above, child⟩
    | none => if make then .ok ⟨(p.here, part) :: p.above, empty⟩ else .error .notFound

/-- The whole tree, with another directory in this place that has the given entries. -/
def fill (p : Place) (entries : List (String × FileTree)) : FileTree :=
  p.above.foldl (fun t (parent, name) => .directory (putEntry name t parent.entries))
    (.directory entries)

end Place

/-- The parts of a path that is not too long. -/
def parts (path : String) : Except FileError (List String) :=
  if path.utf8ByteSize < pathLimit then .ok (path.splitOn "/") else .error .nameTooLong

/-- Follows the parts of a path from the outermost directory. -/
def walk (make : Bool) (t : FileTree) (parts : List String) : Except FileError Place :=
  parts.foldlM (Place.step make) ⟨[], t⟩

def follow (t : FileTree) (path : String) : Except FileError FileTree := do
  return (← t.walk false (← parts path)).here

def directoryAt (t : FileTree) (path : String) : Bool :=
  match t.follow path with
  | .ok child => child.isDirectory
  | .error _ => false

def names (t : FileTree) (path : String) : Except FileError (List String) :=
  (t.follow path).bind fun
    | file _ => .error .notDirectory
    | directory entries => .ok (entries.map (·.1))

def read (t : FileTree) (path : String) : Except FileError (List UInt8) :=
  (t.follow path).bind fun
    | file bytes => .ok bytes
    | directory _ => .error .isDirectory

/-- The directory that holds what a path names, and the path's last part, `none` for the outermost
directory. -/
def holder (make : Bool) (t : FileTree) (path : String) :
    Except FileError (Place × Option String) := do
  let reversed := (← parts path).reverse.dropWhile (· = "")
  let p ← t.walk make reversed.tail.reverse
  if p.here.isDirectory then return (p, reversed.head?) else throw .notDirectory

/-- Puts something at a path, instead of what is there, making directories on the way if `make`
says so. -/
def put (make : Bool) (t : FileTree) (path : String) (child : FileTree) :
    Except FileError FileTree := do
  match ← t.holder make path with
  | (_, none) | (_, some ".") | (_, some "..") => throw .isDirectory
  | (p, some name) =>
    if name.utf8ByteSize > maxName then throw .nameTooLong
    return p.fill (putEntry name child p.here.entries)

/-- Writes a file. A path that ends in a slash names none, whatever it leads to. -/
def write (t : FileTree) (path : String) (bytes : List UInt8) : Except FileError FileTree := do
  discard (t.holder false path)
  if path.endsWith "/" || t.directoryAt path then throw .isDirectory
  t.put false path (.file bytes)

def makeDirectories (t : FileTree) (path : String) : Except FileError FileTree := do
  let p ← t.walk true (← parts path)
  if !p.here.isDirectory then throw .notDirectory
  return p.fill p.here.entries

/-- Moves what lies at one path to another. -/
def rename (t : FileTree) (source target : String) : Except FileError FileTree := do
  let p ← t.walk false (← parts source)
  match p.above with
  | [] => throw .isDirectory
  | (parent, name) :: above =>
    let t := Place.fill ⟨above, parent⟩ (parent.entries.filter (·.1 ≠ name))
    t.put false target p.here

/-- A change of the tree, which a refusal leaves as it was. -/
def update (act : FileTree → Except FileError FileTree) : StateM FileTree (Except FileError Unit) :=
  fun t => match act t with
    | .ok t => (.ok (), t)
    | .error e => (.error e, t)

def fileSystem : FileSystem (StateM FileTree) where
  present path := return ((← get).follow path).isOk
  isDirectory path := return (← get).directoryAt path
  names path := return (← get).names path
  read path := return (← get).read path
  write path bytes := update (·.write path bytes)
  makeDirectories path := update (·.makeDirectories path)
  rename source target := update (·.rename source target)

end FileTree

end EventScript
