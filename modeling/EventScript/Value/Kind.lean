/-!
The kinds of script values, as run-time checks and messages name them.
-/
namespace EventScript

inductive ValueKind where
  | number | string | list | dict | struct | vector | uuid | text | extension
deriving DecidableEq, Inhabited

def ValueKind.all : List ValueKind :=
  [.number, .string, .list, .dict, .struct, .vector, .uuid, .text, .extension]

def ValueKind.name : ValueKind → String
  | number => "number"
  | string => "string"
  | list => "list"
  | dict => "dict"
  | struct => "struct"
  | vector => "vec3"
  | uuid => "uuid"
  | text => "text"
  | extension => "extension"

end EventScript
