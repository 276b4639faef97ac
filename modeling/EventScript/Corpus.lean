import EventScript.Program.Lowering
import EventScript.Source
import EventScript.Syntax.Parser

/-!
From source texts to a program: a single text under the name it declares, or a corpus of files, each
under the name of its resource.
-/
namespace EventScript

namespace Program

/-- A text that declares no name is known by this one. -/
def defaultName : String := "main"

def ofSource (registry : Registry) (limits : Limits) (text : String) : Compiled Program := do
  let schema ← Schema.ofText text
  ofDefinitions registry limits [⟨schema.name?.getD defaultName, none, schema⟩]

/-- Any complaint refuses the whole corpus. -/
def ofCorpus (registry : Registry) (limits : Limits) (files : List SourceFile) :
    Compiled Program := do
  let ds ← files.mapM fun file => do
    let schema ← Schema.ofSource file.id.display file.text
    return ⟨file.id.methodName, some file.id, schema⟩
  ofDefinitions registry limits ds

end Program

/-- The first of these files that the complaint is about. -/
def CompileError.sourceAmong? (e : CompileError) (files : List SourceFile) : Option SourceFile :=
  e.source?.bind fun name => files.find? (·.id.display = name)

end EventScript
