import EventScript.Proofs.Machine.Effect

/-!
What native operations are put together from: operands that are taken off, and effects on the world.
Neither the code of the running call nor the waiting calls have a part in them, so what these two
pieces keep is kept by every native operation.
-/
namespace EventScript

namespace Machine

/-- Put together from taking operands off the running call and effects on the world. -/
inductive Operates : {α : Type} → Machine α → Prop where
  | pop : Operates pop
  | lift {α : Type} (x : Effect α) : Operates x.lift
  | bind {α β : Type} {m : Machine α} {f : α → Machine β} (first : Operates m)
      (others : ∀ a, Operates (f a)) : Operates (m >>= f)

namespace Operates

variable {α : Type}

theorem pure (a : α) : Operates (Pure.pure a : Machine α) := .lift (Pure.pure a)

theorem throw (e : RuntimeError) : Operates (MonadExcept.throw e : Machine α) :=
  .lift (MonadExcept.throw e)

theorem popNumber : Operates popNumber :=
  .bind .pop fun v => by cases v <;> first | exact .pure _ | exact .throw _

theorem popString : Operates popString :=
  .bind .pop fun v => by cases v <;> first | exact .pure _ | exact .throw _

theorem popList : Operates popList :=
  .bind .pop fun v => by cases v <;> first | exact .pure _ | exact .throw _

theorem popDict : Operates popDict :=
  .bind .pop fun v => by cases v <;> first | exact .pure _ | exact .throw _

theorem popStruct : Operates popStruct :=
  .bind .pop fun v => by cases v <;> first | exact .pure _ | exact .throw _

theorem popVector : Operates popVector :=
  .bind .pop fun v => by cases v <;> first | exact .pure _ | exact .throw _

theorem popText : Operates popText :=
  .bind .pop fun v => by cases v <;> first | exact .pure _ | exact .throw _

theorem inspect (look : Heap → α) : Operates (inspect look) := .lift (Effect.inspect look)

theorem onHeap (act : Heap → Except RuntimeError α × Heap) : Operates (onHeap act) :=
  lift_onHeap act ▸ .lift _

theorem onContainer (act : Heap → Except ContainerError α × Heap) : Operates (onContainer act) :=
  .onHeap _

theorem drawId : Operates drawId := .lift Effect.drawId

theorem fieldIndex (n : Number) (r : Ref) : Operates (fieldIndex n r) :=
  lift_fieldIndex n r ▸ .lift _

end Operates

end Machine

open Machine

theorem NativeOp.operates : ∀ op : NativeOp, Operates op.run
  | .listNew | .dictNew => .bind (.onHeap _) fun _ => .pure _
  | .listAppend =>
    .bind .pop fun _ => .bind .popList fun _ => .bind (.onContainer _) fun _ => .pure _
  | .listGet =>
    .bind .popNumber fun _ => .bind .popList fun _ => .bind (.inspect _) fun _ => by
      split
      · exact .pure _
      · exact .throw _
  | .listSize => .bind .popList fun _ => .bind (.inspect _) fun _ => .pure _
  | .dictPut =>
    .bind .pop fun _ => .bind .pop fun _ => .bind .popDict fun _ =>
      .bind (.onContainer _) fun _ => .pure _
  | .dictGet =>
    .bind .pop fun _ => .bind .popDict fun _ => .bind (.inspect _) fun _ => by
      split
      · exact .pure _
      · exact .bind (.inspect _) fun _ => .throw _
  | .dictHas =>
    .bind .pop fun _ => .bind .popDict fun _ => .bind (.inspect _) fun _ => .pure _
  | .structNew =>
    .bind .popNumber fun _ => by
      split
      · split
        · exact .bind (.onContainer _) fun _ => .pure _
        · exact .throw _
      · exact .throw _
  | .structGet =>
    .bind .popNumber fun _ => .bind .popStruct fun _ => .bind (.fieldIndex _ _) fun _ =>
      .bind (.onContainer _) fun _ => .pure _
  | .structSet =>
    .bind .pop fun _ => .bind .popNumber fun _ => .bind .popStruct fun _ =>
      .bind (.fieldIndex _ _) fun _ => .bind (.onContainer _) fun _ => .pure _
  | .vec3New =>
    .bind .popNumber fun _ => .bind .popNumber fun _ => .bind .popNumber fun _ => .pure _
  | .vec3Add | .vec3Multiply => .bind .popVector fun _ => .bind .popVector fun _ => .pure _
  | .vec3X | .vec3Y | .vec3Z => .bind .popVector fun _ => .pure _
  | .textNew | .stringLength => .bind .popString fun _ => .pure _
  | .textColor =>
    .bind .popString fun _ => .bind .popText fun _ => by
      split
      · exact .throw _
      · split
        · exact .pure _
        · exact .throw _
  | .textContents => .bind .popText fun _ => .pure _
  | .textAdd =>
    .bind .pop fun _ => .bind .popText fun _ => by
      split
      · exact .pure _
      · exact .bind (.inspect _) fun _ => .pure _
  | .stringConcat =>
    .bind .pop fun _ => .bind .popString fun _ => .bind (.inspect _) fun _ => .pure _
  | .numberToString => .bind .popNumber fun _ => .pure _
  | .uuidRandom => .bind .drawId fun _ => .pure _

end EventScript
