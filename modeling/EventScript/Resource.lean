import EventScript.SortedMap

/-!
Names of sources: a namespace and a path in it. The path, with its separators replaced, names the
schema that the source holds.
-/
namespace EventScript

/-- Replaces what may separate the parts of a path or of an alternate name. -/
def mangle (name : String) : String :=
  name.map fun c => if c = '/' || c = ':' || c = '.' then '_' else c

structure ResourceId where
  space : String
  path : String
deriving DecidableEq, Hashable, Inhabited

namespace ResourceId

/-- The schema of a source has this name. -/
def methodName (id : ResourceId) : String := mangle id.path

def display (id : ResourceId) : String := id.space ++ ":" ++ id.path

/-- Both sides of the first colon must hold something. -/
def ofText? (text : String) : Option ResourceId :=
  let cs := text.toList
  let space := cs.takeWhile (· != ':')
  match cs.dropWhile (· != ':') with
  | ':' :: path =>
    if space.isEmpty || path.isEmpty then none
    else some ⟨String.ofList space, String.ofList path⟩
  | _ => none

/-- By namespace first. -/
instance : LT ResourceId :=
  ⟨fun a b => a.space < b.space ∨ a.space = b.space ∧ a.path < b.path⟩

instance : DecidableLT ResourceId := fun a b =>
  inferInstanceAs (Decidable (a.space < b.space ∨ a.space = b.space ∧ a.path < b.path))

theorem lt_trans {a b c : ResourceId} (hab : a < b) (hbc : b < c) : a < c := by
  rcases hab with hab | ⟨hab, hab'⟩ <;> rcases hbc with hbc | ⟨hbc, hbc'⟩
  · exact .inl (String.lt_trans hab hbc)
  · exact .inl (hbc ▸ hab)
  · exact .inl (hab ▸ hbc)
  · exact .inr ⟨hab.trans hbc, String.lt_trans hab' hbc'⟩

instance : TransLT ResourceId := ⟨lt_trans⟩

end ResourceId

end EventScript
