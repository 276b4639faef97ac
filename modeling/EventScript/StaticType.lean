import EventScript.Value.Kind

/-!
Static types of expressions, parameters and results. `any` agrees with every type both ways, and
values of that static type are checked when they run.
-/
namespace EventScript

inductive StaticType where
  | any | void | number | bool | string | vec3 | text | list | dict | entity
  /-- A named type without built-in meaning. -/
  | unresolved (name : String)
deriving DecidableEq, Inhabited

namespace StaticType

/-- The types that can be written in a schema header. -/
def keywords : List StaticType :=
  [any, void, number, bool, string, vec3, text, list, dict, entity]

def name : StaticType → String
  | any => "any"
  | void => "void"
  | number => "number"
  | bool => "bool"
  | string => "string"
  | vec3 => "vec3"
  | text => "text"
  | list => "list"
  | dict => "dict"
  | entity => "entity"
  | unresolved name => name

def ofKeyword? (word : String) : Option StaticType := keywords.find? (·.name = word)

/-- A word that is no keyword names an unresolved type. -/
def ofWord (word : String) : StaticType := (ofKeyword? word).getD (unresolved word)

/-- Types agree when their names do, or when either is `any`. -/
def accepts (expected actual : StaticType) : Bool :=
  expected = any || actual = any || expected.name = actual.name

/-- The kind that values of the type must have when they run; booleans are numbers there. -/
def runtimeKind? : StaticType → Option ValueKind
  | number | bool => some .number
  | string => some .string
  | vec3 => some .vector
  | text => some .text
  | list => some .list
  | dict => some .dict
  | any | void | entity | unresolved _ => none

end StaticType

end EventScript
