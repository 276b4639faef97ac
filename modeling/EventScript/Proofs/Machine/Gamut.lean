import Mathlib.Data.List.ReduceOption
import EventScript.Proofs.Heap.Gamut
import EventScript.Proofs.Limits
import EventScript.Proofs.Machine.Performing

/-!
The colors of all that a run holds. Instructions move values about, put texts together and read
colors of 24 bits; if callbacks bring in no other colors, no step does.
-/
namespace EventScript

/-- The operands of a call and what is in its slots. -/
def Frame.held (f : Frame) : List Value := f.stack ++ f.locals.toList.reduceOption

/-- The values of all calls under way. -/
def State.held (s : State) : List Value := s.frames.flatMap Frame.held

theorem State.forall_held_iff {s : State} {P : Value → Prop} : (∀ v ∈ s.held, P v) ↔
    (∀ v ∈ s.frame.stack, P v) ∧ (∀ v, some v ∈ s.frame.locals → P v) ∧
      ∀ c ∈ s.callers, ∀ v ∈ c.1.held, P v := by
  simp only [held, frames, List.forall_mem_flatMap, List.forall_mem_cons, List.forall_mem_map,
    Frame.held, List.forall_mem_append, List.reduceOption_mem_iff, Array.mem_toList_iff, and_assoc]

/-- The slots of a call hold nothing but its arguments. -/
theorem Routine.mem_of_mem_slots {r : Routine} {args : List Value} {v : Value}
    (hv : some v ∈ r.slots args) : v ∈ args := by
  rw [slots, List.mem_toArray, List.mem_append, List.mem_replicate] at hv
  rcases hv with hv | ⟨-, hnone⟩
  · obtain ⟨w, hw, heq⟩ := List.mem_map.1 hv
    cases heq
    exact List.mem_of_mem_take hw
  · cases hnone

namespace State

variable {s : State} {r : Routine} {argc : Nat} {returns : Bool} {frame : Frame}
  {callers : List (Frame × Bool)}

theorem held_start {args : List Value} {world : World} :
    ∀ v ∈ (start r args world).held, v ∈ args :=
  forall_held_iff.2 ⟨nofun, fun _ hv => Routine.mem_of_mem_slots hv, nofun⟩

theorem held_enter : ∀ v ∈ (s.enter r argc returns).held, v ∈ s.held := by
  obtain ⟨hoperands, hlocals, hcallers⟩ := forall_held_iff.1 fun v (hv : v ∈ s.held) => hv
  refine forall_held_iff.2 ⟨nofun, fun v hv => ?_,
    List.forall_mem_cons.2 ⟨fun v hv => ?_, hcallers⟩⟩
  · exact hoperands v (List.mem_of_mem_take (List.mem_reverse.1 (Routine.mem_of_mem_slots hv)))
  · rcases List.mem_append.1 hv with hv | hv
    · exact hoperands v (List.mem_of_mem_drop hv)
    · exact hlocals v (Array.mem_toList_iff.1 (List.reduceOption_mem_iff.1 hv))

theorem held_leave (hc : s.callers = (frame, returns) :: callers) :
    ∀ v ∈ ({ s with frame, callers } : State).held, v ∈ s.held := by
  intro v hv
  simp only [held, frames, hc, List.map_cons, List.flatMap_cons]
  exact List.mem_append_right _ hv

end State

namespace Machine

open Heap

variable {α β : Type} {known : List Value} {gives : α → List Value} {gives' : β → List Value}
  {m : Machine α}

/-- Where all that is held has colors of 24 bits, and so have these values, that stays so, and so
has what is given. -/
def Paints (known : List Value) (m : Machine α) (gives : α → List Value) : Prop :=
  ∀ s : State, (∀ v ∈ s.held, s.world.heap.InGamut v) → (∀ v ∈ known, s.world.heap.InGamut v) →
    s.world.heap.KeepsGamut (m s).2.world.heap ∧
      (∀ v ∈ (m s).2.held, (m s).2.world.heap.InGamut v) ∧
      ∀ a, (m s).1 = .ok a → ∀ v ∈ gives a, (m s).2.world.heap.InGamut v

theorem paints_bind {f : α → Machine β} (hm : Paints known m gives)
    (hf : ∀ a, Paints (gives a ++ known) (f a) gives') : Paints known (m >>= f) gives' := by
  intro s hs hknown
  obtain ⟨hkeeps, hheld, hgives⟩ := hm s hs hknown
  rw [bind_apply]
  rcases hrun : m s with ⟨e | a, t⟩ <;> rw [hrun] at hkeeps hheld hgives
  · exact ⟨hkeeps, hheld, nofun⟩
  · have hknown' : ∀ v ∈ gives a ++ known, t.world.heap.InGamut v :=
      List.forall_mem_append.2 ⟨hgives a rfl, fun v hv => hkeeps v (hknown v hv)⟩
    obtain ⟨hkeeps', hrest⟩ := hf a t hheld hknown'
    exact ⟨fun v hv => hkeeps' v (hkeeps v hv), hrest⟩

theorem paints_pure {a : α}
    (ha : ∀ h : Heap, (∀ w ∈ known, h.InGamut w) → ∀ v ∈ gives a, h.InGamut v) :
    Paints known (pure a : Machine α) gives := by
  refine fun s hs hknown => ⟨.refl _, hs, ?_⟩
  rintro _ ⟨⟩
  exact ha _ hknown

theorem paints_throw (e : RuntimeError) : Paints known (throw e : Machine α) gives :=
  fun _ hs _ => ⟨.refl _, hs, nofun⟩

theorem paints_get : Paints known (get : Machine State) State.held := by
  refine fun _ hs _ => ⟨.refl _, hs, ?_⟩
  rintro _ ⟨⟩
  exact hs

theorem paints_pop : Paints known pop fun v => [v] := by
  intro s hs _
  rw [pop_apply]
  cases hstack : s.frame.stack with
  | nil => exact ⟨.refl _, hs, nofun⟩
  | cons v rest =>
    obtain ⟨hoperands, hlocals, hcallers⟩ := State.forall_held_iff.1 hs
    rw [hstack, List.forall_mem_cons] at hoperands
    refine ⟨.refl _, State.forall_held_iff.2 ⟨hoperands.2, hlocals, hcallers⟩, ?_⟩
    rintro _ ⟨⟩
    exact List.forall_mem_singleton.2 hoperands.1

theorem paints_jump (target : Nat) : Paints known (jump target) fun _ => [] :=
  fun _ hs _ => ⟨.refl _, hs, fun _ _ => nofun⟩

/-- What is stored in a slot was known. -/
theorem paints_store {slot : Nat} {v : Value} (hv : v ∈ known) :
    Paints known (modify fun s => { s with
      frame.locals := s.frame.locals.setIfInBounds slot (some v) }) fun _ => [] := by
  intro s hs hknown
  obtain ⟨hoperands, hlocals, hcallers⟩ := State.forall_held_iff.1 hs
  refine ⟨.refl _, State.forall_held_iff.2 ⟨hoperands, fun w hw => ?_, hcallers⟩, fun _ _ => nofun⟩
  rcases Array.mem_or_eq_of_mem_setIfInBounds hw with hw | heq
  · exact hlocals w hw
  · cases heq
    exact hknown v hv

theorem paints_inspect {look : Heap → α} (gives : α → List Value)
    (hlook : ∀ h : Heap, (∀ w ∈ known, h.InGamut w) → ∀ v ∈ gives (look h), h.InGamut v) :
    Paints known (inspect look) gives := by
  refine fun s hs hknown => ⟨.refl _, hs, ?_⟩
  rintro _ ⟨⟩
  exact hlook _ hknown

theorem paints_onHeap {act : Heap → Except RuntimeError α × Heap}
    (hact : ∀ h : Heap, (∀ w ∈ known, h.InGamut w) → h.KeepsGamut (act h).2 ∧
      ∀ a, (act h).1 = .ok a → ∀ v ∈ gives a, (act h).2.InGamut v) :
    Paints known (onHeap act) gives := by
  intro s hs hknown
  obtain ⟨hkeeps, hgives⟩ := hact _ hknown
  rw [onHeap_apply]
  exact ⟨hkeeps, fun v hv => hkeeps v (hs v hv), hgives⟩

theorem paints_onContainer {act : Heap → Except ContainerError α × Heap}
    (hact : ∀ h : Heap, (∀ w ∈ known, h.InGamut w) → h.KeepsGamut (act h).2 ∧
      ∀ a, (act h).1 = .ok a → ∀ v ∈ gives a, (act h).2.InGamut v) :
    Paints known (onContainer act) gives := by
  refine paints_onHeap fun h hknown => ?_
  obtain ⟨hkeeps, hgives⟩ := hact h hknown
  rcases hrun : act h with ⟨e | a, h'⟩ <;> rw [hrun] at hkeeps hgives
  · exact ⟨hkeeps, nofun⟩
  · exact ⟨hkeeps, fun b hb => hgives b (by cases hb; rfl)⟩

theorem paints_drawId : Paints known drawId fun _ => [] :=
  fun _ hs _ => ⟨.refl _, hs, fun _ _ => nofun⟩

/-- What is looked up without a value as the answer. -/
theorem paints_inspect_plain (look : Heap → α) : Paints known (inspect look) fun _ => [] :=
  paints_inspect _ fun _ _ => nofun

/-- What was known, as a result. -/
theorem paints_known {v : Value} (hv : v ∈ known) :
    Paints known (pure (some v) : Machine (Option Value)) Option.toList :=
  paints_pure fun _ hknown => List.forall_mem_singleton.2 (hknown v hv)

/-- A value without colors, as a result. -/
theorem paints_plain {v : Value} (href : v.ref? = none) (hv : ∀ t, v ≠ .text t) :
    Paints known (pure (some v) : Machine (Option Value)) Option.toList :=
  paints_pure fun _ _ => List.forall_mem_singleton.2 (inGamut_of_plain href hv)

theorem paints_number (n : Number) :
    Paints known (pure (some (.number n)) : Machine (Option Value)) Option.toList :=
  paints_plain rfl nofun

theorem paints_string (text : String) :
    Paints known (pure (some (.string text)) : Machine (Option Value)) Option.toList :=
  paints_plain rfl nofun

/-- A text made of texts that were known, as a result. -/
theorem paints_text {t : RichText} (ht : (∀ u, .text u ∈ known → u.InGamut) → t.InGamut) :
    Paints known (pure (some (.text t)) : Machine (Option Value)) Option.toList :=
  paints_pure fun _ hknown => List.forall_mem_singleton.2 <|
    inGamut_text.2 (ht fun _ hu => inGamut_text.1 (hknown _ hu))

theorem paints_nothing : Paints known (pure none : Machine (Option Value)) Option.toList :=
  paints_pure fun _ _ => nofun

theorem paints_popNumber : Paints known popNumber fun _ => [] :=
  paints_bind paints_pop fun v => by
    cases v with
    | number => exact paints_pure fun _ _ => nofun
    | _ => exact paints_throw _

theorem paints_popString : Paints known popString fun _ => [] :=
  paints_bind paints_pop fun v => by
    cases v with
    | string => exact paints_pure fun _ _ => nofun
    | _ => exact paints_throw _

theorem paints_popVector : Paints known popVector fun _ => [] :=
  paints_bind paints_pop fun v => by
    cases v with
    | vector => exact paints_pure fun _ _ => nofun
    | _ => exact paints_throw _

theorem paints_popList : Paints known popList fun r => [.list r] :=
  paints_bind paints_pop fun v => by
    cases v with
    | list r => exact paints_pure fun _ hknown => (List.forall_mem_append.1 hknown).1
    | _ => exact paints_throw _

theorem paints_popDict : Paints known popDict fun r => [.dict r] :=
  paints_bind paints_pop fun v => by
    cases v with
    | dict r => exact paints_pure fun _ hknown => (List.forall_mem_append.1 hknown).1
    | _ => exact paints_throw _

theorem paints_popStruct : Paints known popStruct fun r => [.struct r] :=
  paints_bind paints_pop fun v => by
    cases v with
    | struct r => exact paints_pure fun _ hknown => (List.forall_mem_append.1 hknown).1
    | _ => exact paints_throw _

theorem paints_popText : Paints known popText fun t => [.text t] :=
  paints_bind paints_pop fun v => by
    cases v with
    | text t => exact paints_pure fun _ hknown => (List.forall_mem_append.1 hknown).1
    | _ => exact paints_throw _

theorem paints_fieldIndex (n : Number) (r : Ref) : Paints known (fieldIndex n r) fun _ => [] := by
  unfold fieldIndex
  split
  · exact paints_pure fun _ _ => nofun
  · exact paints_bind (paints_inspect_plain _) fun _ => paints_throw _

theorem paints_newList :
    Paints known (onHeap fun h => (h.newList #[]).map .ok id) fun v => [v] := by
  refine paints_onHeap fun h _ => ⟨keepsGamut_alloc nofun, ?_⟩
  rintro _ ⟨⟩
  exact List.forall_mem_singleton.2 (inGamut_alloc nofun nofun rfl)

theorem paints_newDict :
    Paints known (onHeap fun h => (h.newDict #[]).map .ok id) fun v => [v] := by
  refine paints_onHeap fun h _ => ⟨keepsGamut_alloc nofun, ?_⟩
  rintro _ ⟨⟩
  exact List.forall_mem_singleton.2 (inGamut_alloc nofun nofun rfl)

theorem paints_newFilled {arity : Nat} :
    Paints known (onContainer (·.newFilled arity (.number .zero))) fun v => [v] := by
  refine paints_onContainer fun h _ => ?_
  have hzero : h.InGamut (.number .zero) := inGamut_of_plain rfl nofun
  obtain ⟨hkeeps, hnew⟩ := keepsGamut_newFilled hzero
  exact ⟨hkeeps, fun v hv => List.forall_mem_singleton.2 (hnew v hv)⟩

theorem paints_field {r : Ref} {i : Nat} (hr : .struct r ∈ known) :
    Paints known (onContainer fun h => (h.field r i, h)) fun v => [v] :=
  paints_onContainer fun h hknown => ⟨.refl h, fun _ hv =>
    List.forall_mem_singleton.2 ((hknown _ hr).field hv)⟩

/-- A store changes the heap and answers nothing. -/
theorem paints_change {act : Heap → Except ContainerError α × Heap}
    (hact : ∀ h : Heap, (∀ w ∈ known, h.InGamut w) → h.KeepsGamut (act h).2) :
    Paints known (onContainer act >>= fun _ => pure none) Option.toList := by
  have hchanges : Paints known (onContainer act) fun _ => [] :=
    paints_onContainer fun h hknown => ⟨hact h hknown, fun _ _ => nofun⟩
  exact paints_bind hchanges fun _ => paints_nothing

end Machine

open Machine Heap

/-- A native operation makes texts of the texts it finds, with colors of 24 bits. -/
theorem NativeOp.paints : ∀ op : NativeOp, Paints [] op.run Option.toList
  | .listNew => paints_bind paints_newList fun _ => paints_known (by simp)
  | .listAppend =>
    paints_bind paints_pop fun _ => paints_bind paints_popList fun _ =>
      paints_change fun _ hknown => keepsGamut_push (hknown _ (by simp))
  | .listGet =>
    paints_bind paints_popNumber fun n => paints_bind paints_popList fun r =>
      paints_bind (paints_inspect (fun items => items.toList) fun _ hknown v hv =>
        (hknown (.list r) (by simp)).item v (Array.mem_toList_iff.1 hv)) fun items => by
        split
        · rename_i hitem
          obtain ⟨i, _, hi⟩ := Option.bind_eq_some_iff.1 hitem
          exact paints_known (List.mem_append_left _
            (Array.mem_toList_iff.2 (Array.mem_of_getElem? hi)))
        · exact paints_throw _
  | .listSize =>
    paints_bind paints_popList fun _ => paints_bind (paints_inspect_plain _) fun _ =>
      paints_number _
  | .dictNew => paints_bind paints_newDict fun _ => paints_known (by simp)
  | .dictPut =>
    paints_bind paints_pop fun _ => paints_bind paints_pop fun _ =>
      paints_bind paints_popDict fun _ =>
        paints_change fun _ hknown => keepsGamut_insert (hknown _ (by simp)) (hknown _ (by simp))
  | .dictGet =>
    paints_bind paints_pop fun key => paints_bind paints_popDict fun r =>
      paints_bind (paints_inspect Option.toList fun _ hknown v hv =>
        (hknown (.dict r) (by simp)).entry (Option.mem_toList.1 hv)) fun found => by
        split
        · exact paints_known (by simp)
        · exact paints_bind (paints_inspect_plain _) fun _ => paints_throw _
  | .dictHas =>
    paints_bind paints_pop fun _ => paints_bind paints_popDict fun _ =>
      paints_bind (paints_inspect_plain _) fun _ => paints_number _
  | .structNew =>
    paints_bind paints_popNumber fun n => by
      split
      · split
        · exact paints_bind paints_newFilled fun _ => paints_known (by simp)
        · exact paints_throw _
      · exact paints_throw _
  | .structGet =>
    paints_bind paints_popNumber fun _ => paints_bind paints_popStruct fun _ =>
      paints_bind (paints_fieldIndex _ _) fun _ => paints_bind (paints_field (by simp)) fun _ =>
        paints_known (by simp)
  | .structSet =>
    paints_bind paints_pop fun _ => paints_bind paints_popNumber fun _ =>
      paints_bind paints_popStruct fun _ => paints_bind (paints_fieldIndex _ _) fun _ =>
        paints_change fun _ hknown => keepsGamut_setField (hknown _ (by simp))
  | .vec3New =>
    paints_bind paints_popNumber fun _ => paints_bind paints_popNumber fun _ =>
      paints_bind paints_popNumber fun _ => paints_plain rfl nofun
  | .vec3Add | .vec3Multiply =>
    paints_bind paints_popVector fun _ => paints_bind paints_popVector fun _ =>
      paints_plain rfl nofun
  | .vec3X | .vec3Y | .vec3Z => paints_bind paints_popVector fun _ => paints_number _
  | .textNew =>
    paints_bind paints_popString fun content => paints_text fun _ => RichText.inGamut_plain content
  | .textColor =>
    paints_bind paints_popString fun color => paints_bind paints_popText fun text => by
      split
      · exact paints_throw _
      · split
        · rename_i hcolored
          exact paints_text fun _ => RichText.inGamut_of_withColor hcolored
        · exact paints_throw _
  | .textContents => paints_bind paints_popText fun _ => paints_string _
  | .textAdd =>
    paints_bind paints_pop fun value => paints_bind paints_popText fun _ => by
      split
      · exact paints_text fun hknown => (hknown _ (by simp)).append (hknown _ (by simp))
      · exact paints_bind (paints_inspect_plain _) fun _ =>
          paints_text fun hknown => (hknown _ (by simp)).push (by simp)
  | .stringConcat =>
    paints_bind paints_pop fun _ => paints_bind paints_popString fun _ =>
      paints_bind (paints_inspect_plain _) fun _ => paints_string _
  | .stringLength => paints_bind paints_popString fun _ => paints_number _
  | .numberToString => paints_bind paints_popNumber fun _ => paints_string _
  | .uuidRandom => paints_bind paints_drawId fun _ => paints_plain rfl nofun

/-- What a run holds, its result included. -/
def Progress.held : Progress → List Value
  | running s => s.held
  | finished (.ok v?) _ => v?.toList
  | finished (.error _) _ => []

/-- Besides these values all that is held has colors of 24 bits. -/
def Progress.InGamut (kept : List Value) (r : Progress) : Prop :=
  ∀ v ∈ kept ++ r.held, r.world.heap.InGamut v

namespace Program

/-- The texts among the constants have colors of 24 bits. -/
def ConstantsInGamut (p : Program) : Prop := ∀ t, .text t ∈ p.constants → t.InGamut

/-- If the next step calls back, the callback brings in no colors but those of 24 bits. -/
def HostKeepsGamut (p : Program) (kept : List Value) (s : State) : Prop :=
  ∀ call args, p.invocation? s = some (call, args) →
    (∀ v ∈ kept ++ s.held, s.world.heap.InGamut v) →
      (∀ v ∈ kept ++ s.held, (call args s.world.heap).2.InGamut v) ∧
        ∀ v, (call args s.world.heap).1 = .ok v → (call args s.world.heap).2.InGamut v

variable {p : Program} {i : Instruction}

/-- What is called back is one of the program's callbacks, and gets operands. -/
theorem mem_of_invocation? {s : State} {call : HostFunction} {args : List Value}
    (h : p.invocation? s = some (call, args)) :
    call ∈ p.hosts ∧ ∀ v ∈ args, v ∈ s.frame.stack := by
  unfold invocation? at h
  split at h
  · split at h
    · obtain ⟨_, hcall, heq⟩ := Option.map_eq_some_iff.1 h
      cases heq
      exact ⟨Array.mem_of_getElem? hcall,
        fun v hv => List.mem_of_mem_take (List.mem_reverse.1 hv)⟩
    · cases h
  · cases h

theorem ConstantsInGamut.outcome (hp : p.ConstantsInGamut)
    (hi : ∀ index argc returns, i ≠ .invokeHost index argc returns) :
    Paints [] (p.outcome i) Option.toList := by
  cases i with
  | pushConstant i =>
    simp only [Program.outcome]
    split
    · rename_i l hl
      cases l with
      | text t => exact paints_text fun _ => hp t (Array.mem_of_getElem? hl)
      | number n => exact paints_number n
      | string text => exact paints_string text
    · exact paints_throw _
  | loadLocal slot =>
    refine paints_bind paints_get fun s => ?_
    simp only
    split
    · rename_i v hv
      have hheld : v ∈ s.held :=
        (State.forall_held_iff.1 fun _ hw => hw).2.1 v (Array.mem_of_getElem? hv)
      exact paints_known (List.mem_append_left _ hheld)
    · exact paints_throw _
    · exact paints_throw _
  | storeLocal slot =>
    refine paints_bind paints_pop fun v => paints_bind paints_get fun s => ?_
    split
    · exact paints_bind (paints_store (by simp)) fun _ => paints_nothing
    · exact paints_throw _
  | pop => exact paints_bind paints_pop fun _ => paints_nothing
  | arithmetic | lessThan | atLeast =>
    exact paints_bind paints_popNumber fun _ => paints_bind paints_popNumber fun _ =>
      paints_number _
  | expect kind =>
    refine paints_bind paints_get fun s => ?_
    split
    · exact paints_throw _
    · split
      · exact paints_throw _
      · exact paints_nothing
  | toText =>
    refine paints_bind paints_pop fun v => ?_
    split
    · exact paints_text fun _ => RichText.inGamut_plain _
    · exact paints_known (by simp)
    · exact paints_throw _
  | jumpIfFalse target =>
    refine paints_bind paints_pop fun v => ?_
    split
    · split
      · exact paints_bind (paints_jump target) fun _ => paints_nothing
      · exact paints_nothing
    · exact paints_throw _
  | jump target => exact paints_bind (paints_jump target) fun _ => paints_nothing
  | native op => exact op.paints
  | invokeHost => exact absurd rfl (hi _ _ _)
  | call | returnValue | returnVoid => exact paints_nothing

end Program

namespace Progress

variable {p : Program} {kept : List Value} {s : State} {r : Progress}

/-- In the same world, with nothing new that is held. -/
theorem InGamut.of_held (hs : (running s).InGamut kept) (hw : r.world = s.world)
    (hheld : ∀ v ∈ r.held, v ∈ s.held) : r.InGamut kept := by
  intro v hv
  rw [hw]
  exact hs v (List.mem_append.2 ((List.mem_append.1 hv).imp_right (hheld v)))

theorem inGamut_error {world : World} (hkept : ∀ v ∈ kept, world.heap.InGamut v)
    (e : RuntimeError) : (finished (.error e) world).InGamut kept :=
  List.forall_mem_append.2 ⟨hkept, nofun⟩

/-- Only what is kept remains of a run that fails. -/
theorem InGamut.failed (hr : r.InGamut kept) (e : RuntimeError) :
    (finished (.error e) r.world).InGamut kept :=
  inGamut_error (List.forall_mem_append.1 hr).1 e

theorem InGamut.push {v : Value} (hs : (running s).InGamut kept) (hv : s.world.heap.InGamut v) :
    (running (s.push v)).InGamut kept := by
  obtain ⟨hkept, hheld⟩ := List.forall_mem_append.1 hs
  obtain ⟨hoperands, hrest⟩ := State.forall_held_iff.1 hheld
  exact List.forall_mem_append.2 ⟨hkept,
    State.forall_held_iff.2 ⟨List.forall_mem_cons.2 ⟨hv, hoperands⟩, hrest⟩⟩

theorem InGamut.deliver {m : Machine (Option Value)} (hs : (running s).InGamut kept)
    (hm : Paints [] m Option.toList) : (Machine.deliver (m s)).InGamut kept := by
  obtain ⟨hkept, hheld⟩ := List.forall_mem_append.1 hs
  obtain ⟨hkeeps, hheld', hgives⟩ := hm s hheld nofun
  have hrunning : (running (m s).2).InGamut kept :=
    List.forall_mem_append.2 ⟨fun v hv => hkeeps v (hkept v hv), hheld'⟩
  rcases hrun : m s with ⟨e | _ | v, t⟩ <;> rw [hrun] at hrunning hgives
  · exact hrunning.failed e
  · exact hrunning
  · exact hrunning.push (hgives _ rfl v List.mem_cons_self)

theorem InGamut.call {function argc : Nat} {returns : Bool} (hs : (running s).InGamut kept) :
    (s.call p function argc returns).InGamut kept := by
  rw [State.call]
  split
  · exact hs.failed _
  · split
    · exact hs.failed _
    · exact hs.of_held rfl State.held_enter

theorem InGamut.answer {result : Option Value} (hs : (running s).InGamut kept)
    (hresult : ∀ v ∈ result, s.world.heap.InGamut v) : (s.answer result).InGamut kept := by
  obtain ⟨hkept, -⟩ := List.forall_mem_append.1 hs
  rcases hc : s.callers with _ | ⟨⟨frame, returns⟩, callers⟩
  · simp only [State.answer, hc]
    exact List.forall_mem_append.2 ⟨hkept, fun v hv => hresult v (Option.mem_toList.1 hv)⟩
  · have hnext : (running { s with frame, callers }).InGamut kept :=
      hs.of_held rfl (State.held_leave hc)
    cases returns with
    | false =>
      simp only [State.answer, hc]
      exact hnext
    | true =>
      cases result with
      | none =>
        simp only [State.answer, hc]
        exact hs.failed _
      | some v =>
        simp only [State.answer, hc]
        exact hnext.push (hresult v rfl)

end Progress

namespace Program

variable {p : Program} {kept : List Value} {s : State}

/-- A callback is called with operands, and its answer is one. -/
theorem HostKeepsGamut.outcome {index argc : Nat} {returns : Bool} (hhost : p.HostKeepsGamut kept s)
    (hi : s.instruction? = some (.invokeHost index argc returns))
    (hs : (Progress.running s).InGamut kept) :
    (Machine.deliver (p.outcome (.invokeHost index argc returns)
      (s.goto (s.frame.next + 1) s.frame.stack))).InGamut kept := by
  simp only [Program.outcome, bind_apply, popMany_apply, State.goto_stack]
  by_cases hargs : s.frame.stack.length < argc
  · simp only [hargs, if_true]
    exact hs.failed _
  · simp only [hargs, if_false]
    cases hcall : p.hosts[index]? with
    | none => exact hs.failed _
    | some call =>
      let args := (s.frame.stack.take argc).reverse
      have hinvocation : p.invocation? s = some (call, args) := by
        simp only [Program.invocation?, hi, Nat.not_lt.1 hargs, if_true, hcall, Option.map_some]
        rfl
      obtain ⟨hkeeps, hanswer⟩ := hhost call args hinvocation hs
      obtain ⟨hkept, hheld⟩ := List.forall_mem_append.1 hkeeps
      obtain ⟨hoperands, hrest⟩ := State.forall_held_iff.1 hheld
      let t := ((s.goto (s.frame.next + 1) (s.frame.stack.drop argc)).inWorld
        { s.world with heap := (call args s.world.heap).2 })
      have ht : (Progress.running t).InGamut kept := List.forall_mem_append.2 ⟨hkept,
        State.forall_held_iff.2 ⟨fun v hv => hoperands v (List.mem_of_mem_drop hv), hrest⟩⟩
      have hrun : (onHeap (call args) ((s.goto (s.frame.next + 1) s.frame.stack).withStack
          (s.frame.stack.drop argc))) = ((call args s.world.heap).1, t) := onHeap_apply _ _
      simp only [bind_apply]
      rw [hrun]
      cases hresult : (call args s.world.heap).1 with
      | error e => exact ht.failed e
      | ok v =>
        cases returns with
        | false => exact ht
        | true => exact ht.push (hanswer v hresult)

theorem ConstantsInGamut.free (hp : p.ConstantsInGamut) (hhost : p.HostKeepsGamut kept s)
    (hs : (Progress.running s).InGamut kept) : (p.free s).InGamut kept := by
  have hgoto : (Progress.running (s.goto (s.frame.next + 1) s.frame.stack)).InGamut kept := hs
  have hfrees := p.frees s
  generalize p.free s = r at hfrees ⊢
  cases hfrees with
  | past | empty => exact hs.failed _
  | call => exact hgoto.call
  | @value v rest _ hstack =>
    obtain ⟨hoperands, hrest⟩ := State.forall_held_iff.1 fun v (hv : v ∈ s.held) => hv
    rw [hstack, List.forall_mem_cons] at hoperands
    have hpopped : (Progress.running (s.goto (s.frame.next + 1) rest)).InGamut kept :=
      hs.of_held rfl (State.forall_held_iff.2 ⟨hoperands.2, hrest⟩)
    refine hpopped.answer fun w hw => ?_
    cases hw
    exact hs _ (List.mem_append_right _ hoperands.1)
  | void => exact hgoto.answer nofun
  | @outcome i hi =>
    by_cases hcalls : ∃ index argc returns, i = .invokeHost index argc returns
    · obtain ⟨index, argc, returns, rfl⟩ := hcalls
      exact hhost.outcome hi hs
    · exact hgoto.deliver (hp.outcome fun index argc returns heq => hcalls ⟨_, _, _, heq⟩)

theorem ConstantsInGamut.step (hp : p.ConstantsInGamut) (hhost : p.HostKeepsGamut kept s)
    (hallow : p.limits.Allow s) (hs : (Progress.running s).InGamut kept) :
    (p.step s).InGamut kept := by
  have hfree := hp.free hhost hs
  rcases cutsStep hallow with ⟨heq, -⟩ | ⟨e, heq, -⟩
  · rwa [heq]
  · rw [heq]
    exact hfree.failed e

variable {index : Nat} {args : List Value} {world : World}

/-- The callbacks of a call bring in no colors but those of 24 bits, whenever they are called. -/
def HostsKeepGamut (p : Program) (index : Nat) (args : List Value) (world : World) : Prop :=
  ∀ n s, p.limited index args world n = .running s → p.HostKeepsGamut args s

/-- At every moment of a call all that is held has colors of 24 bits, the arguments included. -/
theorem ConstantsInGamut.limited (hp : p.ConstantsInGamut)
    (hhosts : p.HostsKeepGamut index args world) (hargs : ∀ v ∈ args, world.heap.InGamut v)
    (n : Nat) : (p.limited index args world n).InGamut args := by
  induction n with
  | zero =>
    simp only [Program.limited, Function.iterate_zero, id_eq, enter]
    by_cases hdepth : 0 ≥ p.limits.callDepth
    · simp only [hdepth, if_true]
      exact Progress.inGamut_error hargs _
    · simp only [hdepth, if_false]
      cases p.routines[index]? with
      | none => exact Progress.inGamut_error hargs _
      | some r =>
        exact List.forall_mem_append.2 ⟨hargs, fun v hv => hargs v (State.held_start v hv)⟩
  | succ n ih =>
    rw [limited_succ]
    cases hs : p.limited index args world n with
    | running s =>
      rw [hs] at ih
      exact hp.step (hhosts n s hs) (allow_of_limited hs) ih
    | finished answer w =>
      rw [hs] at ih
      exact ih

end Program

end EventScript
