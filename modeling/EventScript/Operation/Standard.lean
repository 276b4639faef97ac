import EventScript.Operation

/-!
The standard operations, in the order in which they are listed.
-/
namespace EventScript

namespace Operation

/-- A native operation with the types of its fields and its result. -/
def native (name : String) (fields : List (String × StaticType)) (returns : StaticType)
    (op : NativeOp) (category description : String) : Operation :=
  ⟨name, fields.map fun (name, type) => ⟨name, type⟩, returns, .native op, category, description⟩

def standard : List Operation := [
  native "new_list" [] .list .listNew "list" "Empty list",
  native "list/append" [("list", .list), ("value", .any)] .void .listAppend "list"
    "Append to the end",
  native "list/get" [("list", .list), ("index", .number)] .any .listGet "list" "Element at index",
  native "list/size" [("list", .list)] .number .listSize "list" "Number of elements",
  native "new_dict" [] .dict .dictNew "dict" "Empty dict",
  native "dict/put" [("dict", .dict), ("key", .any), ("value", .any)] .void .dictPut "dict"
    "Insert or replace an entry",
  native "dict/get" [("dict", .dict), ("key", .any)] .any .dictGet "dict"
    "Value for key; missing keys are an error",
  native "dict/has" [("dict", .dict), ("key", .any)] .bool .dictHas "dict"
    "Whether key is present",
  native "new_struct" [("arity", .number)] .any .structNew "struct"
    "Struct of arity fields, each 0",
  native "struct_get" [("struct", .any), ("index", .number)] .any .structGet "struct"
    "Field at index",
  native "struct_set" [("struct", .any), ("index", .number), ("value", .any)] .void .structSet
    "struct" "Replace field at index",
  native "vec3" [("x", .number), ("y", .number), ("z", .number)] .vec3 .vec3New "vec3"
    "Construct a vector",
  native "vec3/add" [("lhs", .vec3), ("rhs", .vec3)] .vec3 .vec3Add "vec3" "Component-wise sum",
  native "vec3/multiply" [("lhs", .vec3), ("rhs", .vec3)] .vec3 .vec3Multiply "vec3"
    "Component-wise product",
  native "vec3/x" [("v", .vec3)] .number .vec3X "vec3" "X component",
  native "vec3/y" [("v", .vec3)] .number .vec3Y "vec3" "Y component",
  native "vec3/z" [("v", .vec3)] .number .vec3Z "vec3" "Z component",
  native "text" [("content", .string)] .text .textNew "text" "Plain text from a string",
  native "text/color" [("text", .text), ("color", .string)] .text .textColor "text"
    "Recolor with a #rrggbb hex string",
  native "text/contents" [("text", .text)] .string .textContents "text"
    "Content with styling stripped",
  native "text/add" [("text", .text), ("value", .any)] .text .textAdd "text"
    "Append text, or any value's display form",
  native "string/concat" [("string", .string), ("value", .any)] .string .stringConcat "string"
    "Append any value's display form",
  native "string/length" [("string", .string)] .number .stringLength "string"
    "Length in characters",
  native "number/to_string" [("number", .number)] .string .numberToString "number"
    "Display form",
  native "random_uuid" [] .any .uuidRandom "uuid" "Random v4 UUID"]

end Operation

def Registry.standard : Registry := Operation.standard.foldl Registry.register Registry.empty

end EventScript
