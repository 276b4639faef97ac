import EventScript.CommandLine
import EventScript.Value.Random

/-!
The command line over the files of the system. Nothing is decided here: commands are carried out by
`CommandLine.respond`, and this module gives them files, random identifiers and somewhere to write.
-/
namespace EventScript

/-- The reason the system gives. Its number, which may come negated, tells reasons of one kind
apart. -/
def FileError.ofSystem : IO.Error → FileError
  | .noFileOrDirectory _ _ _ => .notFound
  | .inappropriateType _ number _ =>
    if number = 20 || -number = 20 then .notDirectory else .isDirectory
  | e@(.invalidArgument _ number _) =>
    if number = 36 || -number = 36 then .nameTooLong else .other e.toString
  | e => .other e.toString

/-- The answer of an access that may be refused. -/
def attempt (access : IO α) : IO (Except FileError α) := do
  match ← access.toBaseIO with
  | .ok a => return .ok a
  | .error e => return .error (.ofSystem e)

def systemFiles : FileSystem IO where
  present path := (System.mkFilePath [path]).pathExists
  isDirectory path := (System.mkFilePath [path]).isDir
  names path := attempt do
    return (← (System.mkFilePath [path]).readDir).toList.map (·.fileName)
  read path := attempt do return (← IO.FS.readBinFile path).toList
  write path bytes := attempt (IO.FS.writeBinFile path ⟨bytes.toArray⟩)
  makeDirectories path := attempt (IO.FS.createDirAll path)
  rename source target := attempt (IO.FS.rename source target)

/-- More instructions than any run has time for. -/
def patience : Nat := 1000000000000000000

def drawSeed : IO UInt64 := return (← IO.getRandomBytes 8).toUInt64LE!

end EventScript

open EventScript in
def main (words : List String) : IO UInt32 := do
  let ids := Uuid.drawnFrom (← drawSeed)
  let output ← CommandLine.respond systemFiles patience ids words
  IO.print output.out
  IO.eprint output.err
  return output.code.toUInt32
