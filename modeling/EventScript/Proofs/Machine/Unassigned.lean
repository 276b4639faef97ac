import EventScript.Proofs.Machine.Performing

/-!
Errors about variables that have not been assigned. Only a read of an empty slot raises one, unless a
callback of the host does.
-/
namespace EventScript

namespace RuntimeError

/-- The error is about a variable that has not been assigned. -/
def IsUnassigned : RuntimeError → Prop
  | unassigned _ _ => True
  | _ => False

end RuntimeError

namespace Machine

variable {α β : Type}

/-- Errors are about other things than unassigned variables. -/
def NeverUnassigned (m : Machine α) : Prop := ∀ s e s', m s = (.error e, s') → ¬e.IsUnassigned

namespace NeverUnassigned

theorem pure (a : α) : NeverUnassigned (Pure.pure a : Machine α) := by
  rintro _ _ _ ⟨⟩

theorem throw {e : RuntimeError} (h : ¬e.IsUnassigned) :
    NeverUnassigned (MonadExcept.throw e : Machine α) := by
  rintro _ _ _ ⟨⟩
  exact h

theorem fault (f : CodeFault) : NeverUnassigned (fault f : Machine α) := throw id

theorem get : NeverUnassigned (MonadState.get : Machine State) := by
  rintro _ _ _ ⟨⟩

theorem jump (target : Nat) : NeverUnassigned (jump target) := by
  rintro _ _ _ ⟨⟩

theorem bind {m : Machine α} {f : α → Machine β} (hm : NeverUnassigned m)
    (hf : ∀ a, NeverUnassigned (f a)) : NeverUnassigned (m >>= f) := by
  intro s e s' h
  rw [bind_apply] at h
  rcases hrun : m s with ⟨e' | a, t⟩ <;> rw [hrun] at h
  · cases h
    exact hm s e s' hrun
  · exact hf a t e s' h

theorem pop : NeverUnassigned pop := by
  intro s e s' h
  rw [pop_apply] at h
  split at h
  · cases h
    exact id
  · cases h

theorem popMany (count : Nat) : NeverUnassigned (popMany count) := by
  intro s e s' h
  rw [popMany_apply] at h
  split at h
  · cases h
    exact id
  · cases h

theorem popNumber : NeverUnassigned popNumber :=
  .bind .pop fun v => by cases v <;> first | exact .pure _ | exact .throw id

theorem popString : NeverUnassigned popString :=
  .bind .pop fun v => by cases v <;> first | exact .pure _ | exact .throw id

theorem popList : NeverUnassigned popList :=
  .bind .pop fun v => by cases v <;> first | exact .pure _ | exact .throw id

theorem popDict : NeverUnassigned popDict :=
  .bind .pop fun v => by cases v <;> first | exact .pure _ | exact .throw id

theorem popStruct : NeverUnassigned popStruct :=
  .bind .pop fun v => by cases v <;> first | exact .pure _ | exact .throw id

theorem popVector : NeverUnassigned popVector :=
  .bind .pop fun v => by cases v <;> first | exact .pure _ | exact .throw id

theorem popText : NeverUnassigned popText :=
  .bind .pop fun v => by cases v <;> first | exact .pure _ | exact .throw id

theorem inspect (look : Heap → α) : NeverUnassigned (inspect look) := by
  rintro _ _ _ ⟨⟩

theorem drawId : NeverUnassigned drawId := by
  rintro _ _ _ ⟨⟩

theorem onHeap {act : Heap → Except RuntimeError α × Heap}
    (hact : ∀ h e h', act h = (.error e, h') → ¬e.IsUnassigned) : NeverUnassigned (onHeap act) := by
  intro s e s' h
  rw [← lift_onHeap] at h
  simp only [Effect.lift, Effect.onHeap] at h
  rcases hrun : act s.world.heap with ⟨r, heap⟩
  rw [hrun] at h
  obtain ⟨rfl, _⟩ := h
  exact hact _ _ _ hrun

theorem onContainer (act : Heap → Except ContainerError α × Heap) :
    NeverUnassigned (onContainer act) := by
  refine onHeap fun h e h' heq => ?_
  split at heq
  · cases heq
  · cases heq
    exact id

theorem fieldIndex (n : Number) (r : Ref) : NeverUnassigned (fieldIndex n r) := by
  unfold Machine.fieldIndex
  split
  · exact .pure _
  · exact .bind (.inspect _) fun _ => .throw id

end NeverUnassigned

end Machine

open Machine

/-- No native operation raises such an error. -/
theorem NativeOp.neverUnassigned : ∀ op : NativeOp, NeverUnassigned op.run
  | .listNew | .dictNew => .bind (.onHeap (by rintro _ _ _ ⟨⟩)) fun _ => .pure _
  | .listAppend =>
    .bind .pop fun _ => .bind .popList fun _ => .bind (.onContainer _) fun _ => .pure _
  | .listGet =>
    .bind .popNumber fun _ => .bind .popList fun _ => .bind (.inspect _) fun _ => by
      split
      · exact .pure _
      · exact .throw id
  | .listSize => .bind .popList fun _ => .bind (.inspect _) fun _ => .pure _
  | .dictPut =>
    .bind .pop fun _ => .bind .pop fun _ => .bind .popDict fun _ =>
      .bind (.onContainer _) fun _ => .pure _
  | .dictGet =>
    .bind .pop fun _ => .bind .popDict fun _ => .bind (.inspect _) fun _ => by
      split
      · exact .pure _
      · exact .bind (.inspect _) fun _ => .throw id
  | .dictHas =>
    .bind .pop fun _ => .bind .popDict fun _ => .bind (.inspect _) fun _ => .pure _
  | .structNew =>
    .bind .popNumber fun _ => by
      split
      · split
        · exact .bind (.onContainer _) fun _ => .pure _
        · exact .throw id
      · exact .throw id
  | .structGet =>
    .bind .popNumber fun _ => .bind .popStruct fun _ => .bind (.fieldIndex _ _) fun _ =>
      .bind (.onContainer _) fun _ => .pure _
  | .structSet =>
    .bind .pop fun _ => .bind .popNumber fun _ => .bind .popStruct fun _ =>
      .bind (.fieldIndex _ _) fun _ => .bind (.onContainer _) fun _ => .pure _
  | .vec3New =>
    .bind .popNumber fun _ => .bind .popNumber fun _ => .bind .popNumber fun _ => .pure _
  | .vec3Add | .vec3Multiply => .bind .popVector fun _ => .bind .popVector fun _ => .pure _
  | .vec3X | .vec3Y | .vec3Z => .bind .popVector fun _ => .pure _
  | .textNew | .stringLength => .bind .popString fun _ => .pure _
  | .textColor =>
    .bind .popString fun _ => .bind .popText fun _ => by
      split
      · exact .throw id
      · split
        · exact .pure _
        · exact .throw id
  | .textContents => .bind .popText fun _ => .pure _
  | .textAdd =>
    .bind .pop fun _ => .bind .popText fun _ => by
      split
      · exact .pure _
      · exact .bind (.inspect _) fun _ => .pure _
  | .stringConcat =>
    .bind .pop fun _ => .bind .popString fun _ => .bind (.inspect _) fun _ => .pure _
  | .numberToString => .bind .popNumber fun _ => .pure _
  | .uuidRandom => .bind .drawId fun _ => .pure _

variable {p : Program} {s t : State} {function name : String} {w : World}

/-- An instruction that reads no slot and calls nothing of the host raises no such error. -/
theorem Machine.Performs.neverUnassigned {α : Type} {i : Instruction} {m : Machine α}
    (h : Performs p i m) (hload : ∀ slot, i ≠ .loadLocal slot)
    (hhost : ∀ index argc returns, i ≠ .invokeHost index argc returns) : NeverUnassigned m := by
  induction h with
  | pure a => exact .pure a
  | fault f => exact .fault f
  | mismatch => exact .throw id
  | unassigned loads => exact absurd loads (hload _)
  | get => exact .get
  | pop => exact .pop
  | popMany count => exact .popMany count
  | jump => exact .jump _
  | store => rintro _ _ _ ⟨⟩
  | native op => exact op.neverUnassigned
  | host calls => exact absurd calls (hhost _ _ _)
  | bind _ _ ih₁ ih₂ => exact .bind ih₁ ih₂

namespace Program

theorem not_isUnassigned_of_answer {result : Option Value} {e : RuntimeError}
    (h : t.answer result = .finished (.error e) w) : ¬e.IsUnassigned := by
  unfold State.answer at h
  split at h <;> cases h
  exact id

/-- A read raises it for the slot that it finds empty. -/
theorem unassigned_of_load {slot : Nat} (h : deliver (p.outcome (.loadLocal slot) t) =
    .finished (.error (.unassigned function name)) w) : t.frame.locals[slot]? = some none ∧
      function = t.frame.routine.name ∧ name = t.frame.routine.localName slot := by
  simp only [outcome, bind_apply, get_apply] at h
  rcases hv : t.frame.locals[slot]? with _ | _ | v <;> rw [hv] at h <;> cases h
  exact ⟨rfl, rfl, rfl⟩

/-- Where the host is called, a callback raises it. -/
theorem unassigned_of_host {index argc : Nat} {returns : Bool}
    (h : deliver (p.outcome (.invokeHost index argc returns) t) =
      .finished (.error (.unassigned function name)) w) :
    ∃ call ∈ p.hosts, ∃ args heap heap',
      call args heap = (.error (.unassigned function name), heap') := by
  simp only [outcome, bind_apply, popMany_apply] at h
  by_cases hargs : t.frame.stack.length < argc
  · simp only [hargs, if_true] at h
    cases h
  · simp only [hargs, if_false] at h
    cases hcall : p.hosts[index]? with
    | none =>
      rw [hcall] at h
      cases h
    | some call =>
      refine ⟨call, Array.mem_of_getElem? hcall, (t.frame.stack.take argc).reverse,
        t.world.heap, ?_⟩
      simp only [hcall, bind_apply, onHeap_apply, State.withStack] at h
      rcases hrun : call (t.frame.stack.take argc).reverse t.world.heap with ⟨e | v, heap⟩ <;>
        rw [hrun] at h
      · cases h
        exact ⟨heap, rfl⟩
      · cases returns <;> cases h

/-- Where such an error comes from: an empty slot is read, or a callback raises it. -/
theorem unassigned_of_free (h : p.free s = .finished (.error (.unassigned function name)) w) :
    (∃ slot, s.instruction? = some (.loadLocal slot) ∧ s.frame.locals[slot]? = some none ∧
      function = s.frame.routine.name ∧ name = s.frame.routine.localName slot) ∨
    ∃ call ∈ p.hosts, ∃ args heap heap',
      call args heap = (.error (.unassigned function name), heap') := by
  obtain ⟨r, hr, h⟩ : ∃ r, s.Frees p r ∧ r = .finished (.error (.unassigned function name)) w :=
    ⟨_, p.frees s, h⟩
  cases hr with
  | past | empty => cases h
  | call =>
    simp only [State.call] at h
    split at h
    · cases h
    · split at h <;> cases h
  | value | void => exact absurd trivial (not_isUnassigned_of_answer h)
  | @outcome i hi =>
    have hordinary (hload : ∀ slot, i ≠ .loadLocal slot)
        (hhost : ∀ index argc returns, i ≠ .invokeHost index argc returns) : False := by
      rcases ho : p.outcome i (s.goto (s.frame.next + 1) s.frame.stack) with ⟨e | _ | v, t⟩ <;>
        rw [ho] at h <;> cases h
      exact (p.performs i).neverUnassigned hload hhost _ _ _ ho trivial
    cases i with
    | loadLocal slot =>
      exact .inl ⟨slot, hi,
        unassigned_of_load (t := s.goto (s.frame.next + 1) s.frame.stack) h⟩
    | invokeHost => exact .inr (unassigned_of_host h)
    | _ => exact (hordinary (by simp) (by simp)).elim

end Program

end EventScript
