import EventScript.Program

/-!
Assembly notation: an instruction as a line of words, and the instruction of such a line. Reading a
line that was written gives the instruction back.
-/
namespace EventScript

def NativeOp.name : NativeOp → String
  | listNew => "ListNew"
  | listAppend => "ListAppend"
  | listGet => "ListGet"
  | listSize => "ListSize"
  | dictNew => "DictNew"
  | dictPut => "DictPut"
  | dictGet => "DictGet"
  | dictHas => "DictHas"
  | structNew => "StructNew"
  | structGet => "StructGet"
  | structSet => "StructSet"
  | vec3New => "Vec3New"
  | vec3Add => "Vec3Add"
  | vec3Multiply => "Vec3Multiply"
  | vec3X => "Vec3X"
  | vec3Y => "Vec3Y"
  | vec3Z => "Vec3Z"
  | textNew => "TextNew"
  | textColor => "TextColor"
  | textContents => "TextContents"
  | textAdd => "TextAdd"
  | stringConcat => "StringConcat"
  | stringLength => "StringLength"
  | numberToString => "NumberToString"
  | uuidRandom => "UuidRandom"

/-- How listings show the way an operation is carried out. -/
def Action.display : Action → String
  | .native op => "Native(" ++ op.name ++ ")"
  | .host _ => "Host(..)"

namespace Instruction

def display : Instruction → String
  | pushConstant i => s!"PushConst {i}"
  | loadLocal slot => s!"LoadLocal {slot}"
  | storeLocal slot => s!"StoreLocal {slot}"
  | pop => "Pop"
  | arithmetic .add => "Add"
  | arithmetic .sub => "Sub"
  | arithmetic .mul => "Mul"
  | arithmetic .div => "Div"
  | lessThan => "Lt"
  | atLeast => "Ge"
  | expect kind => s!"Expect {kind.name}"
  | toText => "ToText"
  | jumpIfFalse target => s!"JumpIfFalse {target}"
  | jump target => s!"Jump {target}"
  | native op => s!"Native {op.name}"
  | invokeHost i argc returns => s!"InvokeHost {i} {argc} {returns}"
  | call i argc returns => s!"Call {i} {argc} {returns}"
  | returnValue => "Return"
  | returnVoid => "ReturnVoid"

def readFlag? : String → Option Bool
  | "true" => some true
  | "false" => some false
  | _ => none

/-- The instruction of a line. -/
def ofWords? : List String → Option Instruction
  | ["PushConst", i] => i.toNat?.map pushConstant
  | ["LoadLocal", slot] => slot.toNat?.map loadLocal
  | ["StoreLocal", slot] => slot.toNat?.map storeLocal
  | ["Pop"] => some pop
  | ["Add"] => some (arithmetic .add)
  | ["Sub"] => some (arithmetic .sub)
  | ["Mul"] => some (arithmetic .mul)
  | ["Div"] => some (arithmetic .div)
  | ["Lt"] => some lessThan
  | ["Ge"] => some atLeast
  | ["Expect", kind] => (ValueKind.all.find? (·.name = kind)).map expect
  | ["ToText"] => some toText
  | ["JumpIfFalse", target] => target.toNat?.map jumpIfFalse
  | ["Jump", target] => target.toNat?.map jump
  | ["Native", name] => (NativeOp.all.find? (·.name = name)).map native
  | ["InvokeHost", i, argc, returns] =>
    return invokeHost (← i.toNat?) (← argc.toNat?) (← readFlag? returns)
  | ["Call", i, argc, returns] => return call (← i.toNat?) (← argc.toNat?) (← readFlag? returns)
  | ["Return"] => some returnValue
  | ["ReturnVoid"] => some returnVoid
  | _ => none

def ofText? (line : String) : Option Instruction := ofWords? (line.splitOn " ")

end Instruction

end EventScript
