import EventScript.Machine.Native
import EventScript.Proofs.Heap.Changing
import EventScript.Proofs.Machine.Unlimited

/-!
Handles in a run. Native operations take operands that have a place in the heap and answer values
that have one, and they change the heap by its own operations only.
-/
namespace EventScript

/-- The heap is free of cycles and holds every operand of the running call. -/
structure State.Tidy (s : State) : Prop where
  wellFormed : s.world.heap.WellFormed
  operands : ∀ v ∈ s.frame.stack, s.world.heap.InRange v

namespace Machine

open Heap

variable {α β : Type} {known : List Value} {gives : α → List Value} {gives' : β → List Value}
  {m : Machine α}

/-- From a tidy state, with these values known to have a place in the heap, the heap goes on to one
that holds the operands that are left and what is given. -/
def Tidies (known : List Value) (m : Machine α) (gives : α → List Value) : Prop :=
  ∀ s : State, s.Tidy → (∀ v ∈ known, s.world.heap.InRange v) →
    s.world.heap.GoesOn (m s).2.world.heap ∧
      (∀ v ∈ (m s).2.frame.stack, (m s).2.world.heap.InRange v) ∧
      ∀ a, (m s).1 = .ok a → ∀ v ∈ gives a, (m s).2.world.heap.InRange v

theorem tidies_bind {f : α → Machine β} (hm : Tidies known m gives)
    (hf : ∀ a, Tidies (gives a ++ known) (f a) gives') : Tidies known (m >>= f) gives' := by
  intro s hs hknown
  obtain ⟨hgoes, hstack, hgives⟩ := hm s hs hknown
  rw [bind_apply]
  rcases hrun : m s with ⟨e | a, t⟩ <;> rw [hrun] at hgoes hstack hgives
  · exact ⟨hgoes, hstack, nofun⟩
  · have hknown' : ∀ v ∈ gives a ++ known, t.world.heap.InRange v := fun v hv =>
      (List.mem_append.1 hv).elim (hgives a rfl v) fun hv => hgoes.inRange (hknown v hv)
    obtain ⟨hgoes', hrest⟩ := hf a t ⟨hgoes.wellFormed, hstack⟩ hknown'
    exact ⟨⟨hgoes'.wellFormed, Nat.le_trans hgoes.size_le hgoes'.size_le⟩, hrest⟩

theorem tidies_pure {a : α} (ha : ∀ v ∈ gives a, v ∈ known ∨ v.ref? = none) :
    Tidies known (pure a : Machine α) gives := by
  refine fun s hs hknown => ⟨hs.wellFormed.goesOn, hs.operands, ?_⟩
  rintro _ ⟨⟩ v hv
  exact (ha v hv).elim (hknown v) inRange_of_ref?_eq_none

theorem tidies_throw (e : RuntimeError) : Tidies known (throw e : Machine α) gives :=
  fun _ hs _ => ⟨hs.wellFormed.goesOn, hs.operands, nofun⟩

theorem tidies_pop : Tidies known pop fun v => [v] := by
  intro s hs _
  rw [pop_apply]
  cases hstack : s.frame.stack with
  | nil => exact ⟨hs.wellFormed.goesOn, hs.operands, nofun⟩
  | cons v rest =>
    have hops := List.forall_mem_cons.1 (hstack ▸ hs.operands)
    refine ⟨hs.wellFormed.goesOn, hops.2, ?_⟩
    rintro _ ⟨⟩ w hw
    cases List.mem_singleton.1 hw
    exact hops.1

theorem tidies_popNumber : Tidies known popNumber fun _ => [] :=
  tidies_bind tidies_pop fun v => by
    cases v <;> first | exact tidies_pure nofun | exact tidies_throw _

theorem tidies_popString : Tidies known popString fun _ => [] :=
  tidies_bind tidies_pop fun v => by
    cases v <;> first | exact tidies_pure nofun | exact tidies_throw _

theorem tidies_popList : Tidies known popList fun _ => [] :=
  tidies_bind tidies_pop fun v => by
    cases v <;> first | exact tidies_pure nofun | exact tidies_throw _

theorem tidies_popDict : Tidies known popDict fun _ => [] :=
  tidies_bind tidies_pop fun v => by
    cases v <;> first | exact tidies_pure nofun | exact tidies_throw _

theorem tidies_popStruct : Tidies known popStruct fun _ => [] :=
  tidies_bind tidies_pop fun v => by
    cases v <;> first | exact tidies_pure nofun | exact tidies_throw _

theorem tidies_popVector : Tidies known popVector fun _ => [] :=
  tidies_bind tidies_pop fun v => by
    cases v <;> first | exact tidies_pure nofun | exact tidies_throw _

theorem tidies_popText : Tidies known popText fun _ => [] :=
  tidies_bind tidies_pop fun v => by
    cases v <;> first | exact tidies_pure nofun | exact tidies_throw _

theorem tidies_inspect {look : Heap → α} (gives : α → List Value)
    (hlook : ∀ h : Heap, h.WellFormed → ∀ v ∈ gives (look h), h.InRange v) :
    Tidies known (inspect look) gives := by
  refine fun s hs _ => ⟨hs.wellFormed.goesOn, hs.operands, ?_⟩
  rintro _ ⟨⟩
  exact hlook _ hs.wellFormed

theorem tidies_onHeap {act : Heap → Except RuntimeError α × Heap}
    (hact : ∀ h : Heap, h.WellFormed → (∀ v ∈ known, h.InRange v) → h.GoesOn (act h).2 ∧
      ∀ a, (act h).1 = .ok a → ∀ v ∈ gives a, (act h).2.InRange v) :
    Tidies known (onHeap act) gives := by
  intro s hs hknown
  obtain ⟨hgoes, hgives⟩ := hact _ hs.wellFormed hknown
  rw [onHeap_apply]
  exact ⟨hgoes, fun v hv => hgoes.inRange (hs.operands v hv), hgives⟩

theorem tidies_onContainer {act : Heap → Except ContainerError α × Heap}
    (hact : ∀ h : Heap, h.WellFormed → (∀ v ∈ known, h.InRange v) → h.GoesOn (act h).2 ∧
      ∀ a, (act h).1 = .ok a → ∀ v ∈ gives a, (act h).2.InRange v) :
    Tidies known (onContainer act) gives := by
  refine tidies_onHeap fun h hh hknown => ?_
  obtain ⟨hgoes, hgives⟩ := hact h hh hknown
  rcases hrun : act h with ⟨e | a, h'⟩ <;> rw [hrun] at hgoes hgives
  · exact ⟨hgoes, nofun⟩
  · exact ⟨hgoes, fun b hb => hgives b (by cases hb; rfl)⟩

theorem tidies_drawId : Tidies known drawId fun _ => [] :=
  fun _ hs _ => ⟨hs.wellFormed.goesOn, hs.operands, fun _ _ => nofun⟩

theorem tidies_fieldIndex (n : Number) (r : Ref) : Tidies known (fieldIndex n r) fun _ => [] := by
  unfold fieldIndex
  split
  · exact tidies_pure nofun
  · exact tidies_bind (tidies_inspect (fun _ => []) fun _ _ => nofun) fun _ =>
      tidies_throw _

/-- A value that is no container, as a result. -/
theorem tidies_plain {v : Value} (hv : v.ref? = none) :
    Tidies known (pure (some v) : Machine (Option Value)) Option.toList :=
  tidies_pure fun w hw => .inr (by cases List.mem_singleton.1 hw; exact hv)

/-- What is looked up without a value as the answer. -/
theorem tidies_inspect_plain (look : Heap → α) : Tidies known (inspect look) fun _ => [] :=
  tidies_inspect _ fun _ _ => nofun

/-- A store changes the heap and answers nothing. -/
theorem tidies_store {act : Heap → Except ContainerError α × Heap}
    (hact : ∀ h : Heap, h.WellFormed → (∀ v ∈ known, h.InRange v) → h.GoesOn (act h).2) :
    Tidies known (onContainer act >>= fun _ => pure none) Option.toList := by
  have hstores : Tidies known (onContainer act) fun _ => [] :=
    tidies_onContainer fun h hh hknown => ⟨hact h hh hknown, fun _ _ => nofun⟩
  exact tidies_bind hstores fun _ => tidies_pure nofun

end Machine

namespace NativeOp

open Machine Heap

theorem tidies_newList {known : List Value} :
    Tidies known (onHeap fun h => (h.newList #[]).map .ok id) fun v => [v] := by
  refine tidies_onHeap fun h hh _ => ⟨hh.goesOn_newList (by simp), ?_⟩
  rintro _ ⟨⟩ v hv r hr
  cases List.mem_singleton.1 hv
  cases hr
  simp [newList, Heap.alloc]

theorem tidies_newDict {known : List Value} :
    Tidies known (onHeap fun h => (h.newDict #[]).map .ok id) fun v => [v] := by
  refine tidies_onHeap fun h hh _ => ⟨hh.goesOn_newDict (by simp), ?_⟩
  rintro _ ⟨⟩ v hv r hr
  cases List.mem_singleton.1 hv
  cases hr
  simp [newDict, Heap.alloc]

theorem tidies_newFilled {known : List Value} {arity : Nat} :
    Tidies known (onContainer (·.newFilled arity (.number .zero))) fun v => [v] := by
  refine tidies_onContainer fun h hh _ => ⟨hh.goesOn_newFilled (inRange_of_ref?_eq_none rfl), ?_⟩
  intro v hv w hw
  cases List.mem_singleton.1 hw
  exact inRange_newFilled hv

theorem tidies_field {known : List Value} {r : Ref} {i : Nat} :
    Tidies known (onContainer fun h => (h.field r i, h)) fun v => [v] := by
  refine tidies_onContainer fun h hh _ => ⟨hh.goesOn, fun v hv w hw => ?_⟩
  cases List.mem_singleton.1 hw
  exact hh.closed.inRange (mem_inside_struct (Array.mem_toList_iff.2 (mem_fields_of_field hv)))

/-- A native operation takes its operands from the heap and answers a value of it. -/
theorem tidies : ∀ op : NativeOp, Tidies [] op.run Option.toList
  | .listNew => tidies_bind tidies_newList fun _ => tidies_pure (by simp)
  | .listAppend =>
    tidies_bind tidies_pop fun _ => tidies_bind tidies_popList fun _ =>
      tidies_store fun _ hh hknown => hh.goesOn_push (hknown _ (by simp))
  | .listGet =>
    tidies_bind tidies_popNumber fun n => tidies_bind tidies_popList fun r =>
      tidies_bind (tidies_inspect (fun items => items.toList) fun h hh v hv =>
        hh.closed.inRange (mem_inside_list hv)) fun items => by
        split
        · rename_i item hitem
          obtain ⟨i, _, hi⟩ := Option.bind_eq_some_iff.1 hitem
          refine tidies_pure fun v hv => .inl ?_
          cases List.mem_singleton.1 hv
          exact List.mem_append_left _ (Array.mem_toList_iff.2 (Array.mem_of_getElem? hi))
        · exact tidies_throw _
  | .listSize =>
    tidies_bind tidies_popList fun _ => tidies_bind (tidies_inspect_plain _) fun _ =>
      tidies_plain rfl
  | .dictNew => tidies_bind tidies_newDict fun _ => tidies_pure (by simp)
  | .dictPut =>
    tidies_bind tidies_pop fun _ => tidies_bind tidies_pop fun _ =>
      tidies_bind tidies_popDict fun _ =>
        tidies_store fun _ hh hknown => hh.goesOn_insert (hknown _ (by simp)) (hknown _ (by simp))
  | .dictGet =>
    tidies_bind tidies_pop fun key => tidies_bind tidies_popDict fun r =>
      tidies_bind (tidies_inspect Option.toList fun h hh v hv => by
        obtain ⟨e, he, rfl⟩ := exists_entry_of_get? (Option.mem_toList.1 hv)
        exact hh.closed.inRange (mem_inside_dict (Array.mem_toList_iff.2 he)).2) fun found => by
        split
        · exact tidies_pure fun v hv => .inl (List.mem_append_left _ hv)
        · exact tidies_bind (tidies_inspect_plain _) fun _ => tidies_throw _
  | .dictHas =>
    tidies_bind tidies_pop fun _ => tidies_bind tidies_popDict fun _ =>
      tidies_bind (tidies_inspect_plain _) fun _ => tidies_plain rfl
  | .structNew =>
    tidies_bind tidies_popNumber fun n => by
      split
      · split
        · exact tidies_bind tidies_newFilled fun _ => tidies_pure (by simp)
        · exact tidies_throw _
      · exact tidies_throw _
  | .structGet =>
    tidies_bind tidies_popNumber fun n => tidies_bind tidies_popStruct fun r =>
      tidies_bind (tidies_fieldIndex _ _) fun i => tidies_bind tidies_field fun _ =>
        tidies_pure (by simp)
  | .structSet =>
    tidies_bind tidies_pop fun _ => tidies_bind tidies_popNumber fun _ =>
      tidies_bind tidies_popStruct fun _ => tidies_bind (tidies_fieldIndex _ _) fun _ =>
        tidies_store fun _ hh hknown => hh.goesOn_setField (hknown _ (by simp))
  | .vec3New =>
    tidies_bind tidies_popNumber fun _ => tidies_bind tidies_popNumber fun _ =>
      tidies_bind tidies_popNumber fun _ => tidies_plain rfl
  | .vec3Add =>
    tidies_bind tidies_popVector fun _ => tidies_bind tidies_popVector fun _ => tidies_plain rfl
  | .vec3Multiply =>
    tidies_bind tidies_popVector fun _ => tidies_bind tidies_popVector fun _ => tidies_plain rfl
  | .vec3X => tidies_bind tidies_popVector fun _ => tidies_plain rfl
  | .vec3Y => tidies_bind tidies_popVector fun _ => tidies_plain rfl
  | .vec3Z => tidies_bind tidies_popVector fun _ => tidies_plain rfl
  | .textNew => tidies_bind tidies_popString fun _ => tidies_plain rfl
  | .textColor =>
    tidies_bind tidies_popString fun color => tidies_bind tidies_popText fun text => by
      split
      · exact tidies_throw _
      · split
        · exact tidies_plain rfl
        · exact tidies_throw _
  | .textContents => tidies_bind tidies_popText fun _ => tidies_plain rfl
  | .textAdd =>
    tidies_bind tidies_pop fun value => tidies_bind tidies_popText fun _ => by
      split
      · exact tidies_plain rfl
      · exact tidies_bind (tidies_inspect_plain _) fun _ => tidies_plain rfl
  | .stringConcat =>
    tidies_bind tidies_pop fun _ => tidies_bind tidies_popString fun _ =>
      tidies_bind (tidies_inspect_plain _) fun _ => tidies_plain rfl
  | .stringLength => tidies_bind tidies_popString fun _ => tidies_plain rfl
  | .numberToString => tidies_bind tidies_popNumber fun _ => tidies_plain rfl
  | .uuidRandom => tidies_bind tidies_drawId fun _ => tidies_plain rfl

end NativeOp

end EventScript
