import EventScript.Machine.State
import EventScript.RichText.Markup

/-!
What the native operations do. Operands are taken from the last argument to the first, each checked
as it is taken.
-/
namespace EventScript

namespace Machine

/-- The field that a number names; a number that is no position names none. -/
def fieldIndex (n : Number) (r : Ref) : Machine Nat := do
  match n.index? with
  | some i => return i
  | none => throw (.container (.index Number.maxIndex (← inspect (·.fields r)).size))

end Machine

open Machine in
/-- Carries out a native operation and answers its result, if it has one. -/
def NativeOp.run : NativeOp → Machine (Option Value)
  | .listNew => return some (← onHeap fun h => (h.newList #[]).map .ok id)
  | .listAppend => do
    let value ← pop
    let list ← popList
    onContainer (·.push list value)
    return none
  | .listGet => do
    let index ← popNumber
    let list ← popList
    let items ← inspect (·.items list)
    match index.index?.bind (items[·]?) with
    | some item => return some item
    | none => throw (.listIndex index items.size)
  | .listSize => do
    let list ← popList
    return some (.number (.ofNat (← inspect (·.items list)).size))
  | .dictNew => return some (← onHeap fun h => (h.newDict #[]).map .ok id)
  | .dictPut => do
    let value ← pop
    let key ← pop
    let dict ← popDict
    let _ ← onContainer (·.insert dict key value)
    return none
  | .dictGet => do
    let key ← pop
    let dict ← popDict
    match ← inspect (·.get? dict key) with
    | some value => return some value
    | none => throw (.missingKey (← inspect (·.display key)))
  | .dictHas => do
    let key ← pop
    let dict ← popDict
    return some (.ofBool (← inspect (·.has dict key)))
  | .structNew => do
    let arity ← popNumber
    match arity.index? with
    | some size =>
      if size ≤ Heap.maxArity then
        return some (← onContainer (·.newFilled size (.number .zero)))
      else throw (.structArity arity)
    | none => throw (.structArity arity)
  | .structGet => do
    let n ← popNumber
    let struct ← popStruct
    let i ← fieldIndex n struct
    return some (← onContainer fun h => (h.field struct i, h))
  | .structSet => do
    let value ← pop
    let n ← popNumber
    let struct ← popStruct
    let i ← fieldIndex n struct
    onContainer (·.setField struct i value)
    return none
  | .vec3New => do
    let z ← popNumber
    let y ← popNumber
    let x ← popNumber
    return some (.vector ⟨x, y, z⟩)
  | .vec3Add => do
    let right ← popVector
    let left ← popVector
    return some (.vector (left.add right))
  | .vec3Multiply => do
    let right ← popVector
    let left ← popVector
    return some (.vector (left.multiply right))
  | .vec3X => return some (.number (← popVector).x)
  | .vec3Y => return some (.number (← popVector).y)
  | .vec3Z => return some (.number (← popVector).z)
  | .textNew => return some (.text (.plain (← popString)))
  | .textColor => do
    let color ← popString
    let text ← popText
    match RichText.readColor? color with
    | none => throw (.invalidColor color)
    | some rgb =>
      match text.withColor rgb with
      | .ok text => return some (.text text)
      | .error _ => throw (.invalidColor color)
  | .textContents => return some (.string (← popText).contents)
  | .textAdd => do
    let value ← pop
    let text ← popText
    match value with
    | .text other => return some (.text (text.append other))
    | value => return some (.text (text.push ⟨← inspect (·.display value), none⟩))
  | .stringConcat => do
    let value ← pop
    let string ← popString
    return some (.string (string ++ (← inspect (·.display value))))
  | .stringLength => return some (.number (.ofNat (← popString).length))
  | .numberToString => return some (.string (← popNumber).text)
  | .uuidRandom => return some (.uuid (← drawId))

end EventScript
