import EventScript.SortedMap
import EventScript.Source

/-!
Sources kept in memory, which are loaded in the order of their ids.
-/
namespace EventScript

abbrev MemorySource := SortedMap ResourceId String

def MemorySource.load (s : MemorySource) : List SourceFile := s.entries.map fun (id, text) => ⟨id, text⟩

end EventScript
