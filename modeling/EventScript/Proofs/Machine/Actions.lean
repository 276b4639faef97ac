import EventScript.Proofs.TreeShape

/-!
What native operations do to the heap. Each takes its operands first and then does at most one of
the things that can be done to a heap, with what it has taken.
-/
namespace EventScript

open Heap

/-- Done to the heap itself, not by an operation of the machine. -/
def Heap.Action.IsDirect : Heap.Action → Prop
  | .native .. => False
  | _ => True

/-- The heap is as it was, or one thing was done to it that involves none but these containers. -/
inductive Heap.ActedOn (h : Heap) (given : List Value) : Heap → Prop
  | not : h.ActedOn given h
  | once (action : Action) (direct : action.IsDirect)
      (operands : ∀ v ∈ action.operands, v ∈ given ∨ v.ref? = none) :
      h.ActedOn given (action.perform h)

theorem Heap.ActedOn.mono {h h' : Heap} {given given' : List Value} (ha : h.ActedOn given h')
    (hgiven : ∀ v ∈ given, v ∈ given') : h.ActedOn given' h' := by
  cases ha with
  | not => exact .not
  | once _ direct operands => exact .once _ direct fun v hv => (operands v hv).imp_left (hgiven v)

namespace Machine

variable {α β : Type} {known : List Value} {gives : α → List Value}
  {m : Machine α} {f : α → Machine β}

/-- Nothing happens to the heap, and what is given was known or is an operand. -/
def Fetches (known : List Value) (m : Machine α) (gives : α → List Value) : Prop :=
  ∀ s : State, (m s).2.world.heap = s.world.heap ∧
    (∀ v ∈ (m s).2.frame.stack, v ∈ s.frame.stack) ∧
      ∀ a, (m s).1 = .ok a → ∀ v ∈ gives a, v ∈ known ++ s.frame.stack

/-- At most one thing happens to the heap, with what is known and the operands. -/
def Acts (known : List Value) (m : Machine α) : Prop :=
  ∀ s : State, s.world.heap.ActedOn (known ++ s.frame.stack) (m s).2.world.heap

theorem Fetches.acts (hm : Fetches known m gives) : Acts known m := fun s => by
  rw [(hm s).1]
  exact .not

/-- What is taken first is known afterwards. -/
theorem acts_bind (hm : Fetches known m gives) (hf : ∀ a, Acts (gives a ++ known) (f a)) :
    Acts known (m >>= f) := by
  intro s
  obtain ⟨hheap, hstack, hgives⟩ := hm s
  rw [bind_apply]
  rcases hrun : m s with ⟨e | a, t⟩ <;> rw [hrun] at hheap hstack hgives
  · exact hheap ▸ .not
  · rw [← hheap]
    refine (hf a t).mono fun v hv => ?_
    rcases List.mem_append.1 hv with hv | hv
    · exact (List.mem_append.1 hv).elim (hgives a rfl v) (List.mem_append_left _)
    · exact List.mem_append_right _ (hstack v hv)

/-- An answer is put together without the heap. -/
theorem Acts.bind_pure (hm : Acts known m) (g : α → β) :
    Acts known (m >>= fun a => pure (g a)) := by
  intro s
  have hm := hm s
  rw [bind_apply]
  rcases hrun : m s with ⟨e | a, t⟩ <;> rw [hrun] at hm <;> exact hm

theorem fetches_pure (a : α) : Fetches known (pure a : Machine α) fun _ => [] :=
  fun _ => ⟨rfl, fun _ hv => hv, fun _ _ => nofun⟩

theorem fetches_throw (e : RuntimeError) : Fetches known (throw e : Machine α) gives :=
  fun _ => ⟨rfl, fun _ hv => hv, nofun⟩

theorem fetches_pop : Fetches known pop fun v => [v] := by
  intro s
  rw [pop_apply]
  cases hstack : s.frame.stack with
  | nil => exact ⟨rfl, by simp [hstack], nofun⟩
  | cons v rest =>
    refine ⟨rfl, fun w hw => List.mem_cons_of_mem v hw, ?_⟩
    rintro _ ⟨⟩ w hw
    cases List.mem_singleton.1 hw
    exact List.mem_append_right _ List.mem_cons_self

theorem fetches_inspect (look : Heap → α) : Fetches known (inspect look) fun _ => [] :=
  fun _ => ⟨rfl, fun _ hv => hv, fun _ _ => nofun⟩

theorem fetches_drawId : Fetches known drawId fun _ => [] :=
  fun _ => ⟨rfl, fun _ hv => hv, fun _ _ => nofun⟩

/-- An operand that is looked into, and may turn out to be of another kind. -/
theorem fetches_pop_bind {f : Value → Machine α} (hf : ∀ v s, (f v s).2 = s) :
    Fetches known (pop >>= f) fun _ => [] := by
  intro s
  have hpop : Fetches known pop fun v => [v] := fetches_pop
  obtain ⟨hheap, hstack, _⟩ := hpop s
  rw [bind_apply]
  rcases hrun : pop s with ⟨e | v, t⟩ <;> rw [hrun] at hheap hstack
  · exact ⟨hheap, hstack, nofun⟩
  · simp only [hf]
    exact ⟨hheap, hstack, fun _ _ => nofun⟩

theorem fetches_popNumber : Fetches known popNumber fun _ => [] :=
  fetches_pop_bind fun v _ => by cases v <;> rfl

theorem fetches_popString : Fetches known popString fun _ => [] :=
  fetches_pop_bind fun v _ => by cases v <;> rfl

theorem fetches_popList : Fetches known popList fun _ => [] :=
  fetches_pop_bind fun v _ => by cases v <;> rfl

theorem fetches_popDict : Fetches known popDict fun _ => [] :=
  fetches_pop_bind fun v _ => by cases v <;> rfl

theorem fetches_popStruct : Fetches known popStruct fun _ => [] :=
  fetches_pop_bind fun v _ => by cases v <;> rfl

theorem fetches_popVector : Fetches known popVector fun _ => [] :=
  fetches_pop_bind fun v _ => by cases v <;> rfl

theorem fetches_popText : Fetches known popText fun _ => [] :=
  fetches_pop_bind fun v _ => by cases v <;> rfl

theorem fetches_fieldIndex (n : Number) (r : Ref) : Fetches known (fieldIndex n r) fun _ => [] := by
  intro s
  unfold fieldIndex
  cases n.index? <;> exact ⟨rfl, fun _ hv => hv, fun _ _ => nofun⟩

theorem acts_pure (a : α) : Acts known (pure a : Machine α) := (fetches_pure a).acts

theorem acts_throw (e : RuntimeError) : Acts known (throw e : Machine α) := by
  have hthrow : Fetches known (throw e : Machine α) fun _ => [] := fetches_throw e
  exact hthrow.acts

theorem acts_onHeap {act : Heap → Except RuntimeError α × Heap}
    (hact : ∀ h : Heap, h.ActedOn known (act h).2) : Acts known (onHeap act) := by
  intro s
  rw [onHeap_apply]
  exact (hact _).mono fun v hv => List.mem_append_left _ hv

theorem acts_onContainer {act : Heap → Except ContainerError α × Heap}
    (hact : ∀ h : Heap, h.ActedOn known (act h).2) : Acts known (onContainer act) := by
  refine acts_onHeap fun h => ?_
  have hact := hact h
  rcases hrun : act h with ⟨e | a, h'⟩ <;> rw [hrun] at hact <;> exact hact

end Machine

namespace NativeOp

open Machine

theorem acts : ∀ op : NativeOp, Acts [] op.run
  | .listNew =>
    (acts_onHeap fun _ => .once (.newList #[]) trivial nofun).bind_pure some
  | .listAppend =>
    acts_bind fetches_pop fun v => acts_bind fetches_popList fun r =>
      (acts_onContainer fun _ => .once (.push r v) trivial
        (by simp [Action.operands])).bind_pure _
  | .listGet =>
    acts_bind fetches_popNumber fun _ => acts_bind fetches_popList fun _ =>
      acts_bind (fetches_inspect _) fun _ => by
        split
        · exact acts_pure _
        · exact acts_throw _
  | .listSize =>
    acts_bind fetches_popList fun _ => acts_bind (fetches_inspect _) fun _ => acts_pure _
  | .dictNew =>
    (acts_onHeap fun _ => .once (.newDict #[]) trivial nofun).bind_pure some
  | .dictPut =>
    acts_bind fetches_pop fun v => acts_bind fetches_pop fun k => acts_bind fetches_popDict fun r =>
      (acts_onContainer fun _ => .once (.insert r k v) trivial
        (by simp [Action.operands])).bind_pure _
  | .dictGet =>
    acts_bind fetches_pop fun _ => acts_bind fetches_popDict fun _ =>
      acts_bind (fetches_inspect _) fun _ => by
        split
        · exact acts_pure _
        · exact acts_bind (fetches_inspect _) fun _ => acts_throw _
  | .dictHas =>
    acts_bind fetches_pop fun _ => acts_bind fetches_popDict fun _ =>
      acts_bind (fetches_inspect _) fun _ => acts_pure _
  | .structNew =>
    acts_bind fetches_popNumber fun n => by
      split
      · split
        · exact (acts_onContainer fun _ => .once (.newFilled _ (.number .zero)) trivial
            (by simp [Action.operands, Value.ref?])).bind_pure some
        · exact acts_throw _
      · exact acts_throw _
  | .structGet =>
    acts_bind fetches_popNumber fun n => acts_bind fetches_popStruct fun _ =>
      acts_bind (fetches_fieldIndex _ _) fun _ => (acts_onContainer fun _ => .not).bind_pure some
  | .structSet =>
    acts_bind fetches_pop fun v => acts_bind fetches_popNumber fun n =>
      acts_bind fetches_popStruct fun r => acts_bind (fetches_fieldIndex _ _) fun i =>
        (acts_onContainer fun _ => .once (.setField r i v) trivial
          (by simp [Action.operands])).bind_pure _
  | .vec3New =>
    acts_bind fetches_popNumber fun _ => acts_bind fetches_popNumber fun _ =>
      acts_bind fetches_popNumber fun _ => acts_pure _
  | .vec3Add | .vec3Multiply =>
    acts_bind fetches_popVector fun _ => acts_bind fetches_popVector fun _ => acts_pure _
  | .vec3X | .vec3Y | .vec3Z => acts_bind fetches_popVector fun _ => acts_pure _
  | .textNew | .stringLength => acts_bind fetches_popString fun _ => acts_pure _
  | .textColor =>
    acts_bind fetches_popString fun _ => acts_bind fetches_popText fun _ => by
      split
      · exact acts_throw _
      · split
        · exact acts_pure _
        · exact acts_throw _
  | .textContents => acts_bind fetches_popText fun _ => acts_pure _
  | .textAdd =>
    acts_bind fetches_pop fun _ => acts_bind fetches_popText fun _ => by
      split
      · exact acts_pure _
      · exact acts_bind (fetches_inspect _) fun _ => acts_pure _
  | .stringConcat =>
    acts_bind fetches_pop fun _ => acts_bind fetches_popString fun _ =>
      acts_bind (fetches_inspect _) fun _ => acts_pure _
  | .numberToString => acts_bind fetches_popNumber fun _ => acts_pure _
  | .uuidRandom => acts_bind fetches_drawId fun _ => acts_pure _

/-- A native operation does at most one thing to the heap, with its operands. -/
theorem actedOn (op : NativeOp) (s : State) :
    s.world.heap.ActedOn s.frame.stack (op.run s).2.world.heap := op.acts s

end NativeOp

end EventScript
