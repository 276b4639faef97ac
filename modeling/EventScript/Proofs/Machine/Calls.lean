import EventScript.Proofs.Machine.Performing

/-!
Steps as the calls under way see them. A step goes on within the running call, begins another one, or
goes back to the innermost call that waits. The other calls are not touched, and the variables of a
call change only where it stores one itself.
-/
namespace EventScript

/-- A call can go on at the second offset after an instruction at the first one. -/
inductive Instruction.GoesTo (i : Instruction) (n : Nat) : Nat → Prop where
  | next (jumps : ∀ target, i ≠ .jump target) (value : i ≠ .returnValue) (void : i ≠ .returnVoid) :
      i.GoesTo n (n + 1)
  | target {m : Nat} (target : i.target? = some m) : i.GoesTo n m

/-- A call carries out an instruction by itself. -/
structure Frame.Moves (f : Frame) (i : Instruction) (f' : Frame) : Prop where
  routine : f'.routine = f.routine
  next : i.GoesTo f.next f'.next
  locals : (∀ slot, i ≠ .storeLocal slot) ∧ f'.locals = f.locals ∨
    ∃ slot v, i = .storeLocal slot ∧ slot < f.locals.size ∧
      f'.locals = f.locals.setIfInBounds slot (some v)

/-- What a step that goes on does to the calls under way. -/
inductive State.Advances (p : Program) (s s' : State) : Prop where
  | within {i : Instruction} (instruction : s.instruction? = some i)
      (callers : s'.callers = s.callers) (moves : s.frame.Moves i s'.frame)
  | call {function argc : Nat} {returns : Bool} {r : Routine}
      (instruction : s.instruction? = some (.call function argc returns))
      (routine : p.routines[function]? = some r) (arguments : argc ≤ s.frame.stack.length)
      (entered : s' = (s.goto (s.frame.next + 1) s.frame.stack).enter r argc returns)
  | back {i : Instruction} {frame : Frame} {returns : Bool} (instruction : s.instruction? = some i)
      (ends : i = .returnValue ∨ i = .returnVoid) (callers : s.callers = (frame, returns) :: s'.callers)
      (resumed : s'.frame = { frame with stack := s'.frame.stack }) (world : s'.world = s.world)

namespace Machine

variable {α β : Type}

/-- Of the calls under way, at most the operands of the running one change. -/
def Stays (m : Machine α) : Prop := ∀ s : State, (m s).2.callers = s.callers ∧
  (m s).2.frame = { s.frame with stack := (m s).2.frame.stack }

theorem stays_pure (a : α) : Stays (pure a) := fun _ => ⟨rfl, rfl⟩

theorem stays_throw (e : RuntimeError) : Stays (throw e : Machine α) := fun _ => ⟨rfl, rfl⟩

theorem stays_get : Stays (get : Machine State) := fun _ => ⟨rfl, rfl⟩

theorem stays_bind {m : Machine α} {f : α → Machine β} (hm : Stays m) (hf : ∀ a, Stays (f a)) :
    Stays (m >>= f) := by
  intro s
  have hfirst := hm s
  rw [bind_apply]
  rcases hrun : m s with ⟨e | a, t⟩ <;> rw [hrun] at hfirst
  · exact hfirst
  · obtain ⟨hcallers, hframe⟩ := hf a t
    refine ⟨hcallers.trans hfirst.1, ?_⟩
    rw [hfirst.2] at hframe
    exact hframe

theorem stays_pop : Stays pop := by
  intro s
  rw [pop_apply]
  cases s.frame.stack <;> exact ⟨rfl, rfl⟩

theorem stays_popMany (count : Nat) : Stays (popMany count) := by
  intro s
  rw [popMany_apply]
  split <;> exact ⟨rfl, rfl⟩

theorem stays_lift (x : Effect α) : Stays x.lift := fun _ => ⟨rfl, rfl⟩

theorem Operates.stays {m : Machine α} (h : Operates m) : Stays m := by
  induction h with
  | pop => exact stays_pop
  | lift x => exact stays_lift x
  | bind _ _ ih₁ ih₂ => exact stays_bind ih₁ ih₂

/-- An instruction that neither jumps nor stores leaves the running call where it is. -/
theorem Performs.stays {p : Program} {i : Instruction} {m : Machine α} (h : Performs p i m)
    (hjump : i.target? = none) (hstore : ∀ slot, i ≠ .storeLocal slot) : Stays m := by
  induction h with
  | pure a => exact stays_pure a
  | fault | mismatch | unassigned => exact stays_throw _
  | get => exact stays_get
  | pop => exact stays_pop
  | popMany count => exact stays_popMany count
  | jump jumps =>
    rw [hjump] at jumps
    cases jumps
  | store stores => exact absurd stores (hstore _)
  | native op => exact op.operates.stays
  | host => exact (Operates.onHeap _).stays
  | bind _ _ ih₁ ih₂ => exact stays_bind ih₁ ih₂

end Machine

open Machine

namespace Program

variable {p : Program} {s s' t : State} {i : Instruction}

/-- What an instruction has done before its result goes onto the stack. -/
theorem moves_outcome {v? : Option Value} (hvalue : i ≠ .returnValue) (hvoid : i ≠ .returnVoid)
    (ht : t = s.goto (s.frame.next + 1) s.frame.stack) (h : p.outcome i t = (.ok v?, s')) :
    s'.callers = s.callers ∧ s.frame.Moves i s'.frame := by
  have hnext (hjump : ∀ target, i ≠ .jump target) : i.GoesTo s.frame.next t.frame.next := by
    rw [ht]
    exact .next hjump hvalue hvoid
  have hordinary (hjump : i.target? = none) (hstore : ∀ slot, i ≠ .storeLocal slot) :
      s'.callers = s.callers ∧ s.frame.Moves i s'.frame := by
    have hstays := (p.performs i).stays hjump hstore t
    rw [h] at hstays
    obtain ⟨hcallers, hframe⟩ := hstays
    refine ⟨hcallers.trans (by rw [ht]; rfl), ?_, ?_, .inl ⟨hstore, ?_⟩⟩
    · rw [hframe, ht]
      rfl
    · rw [hframe]
      refine hnext ?_
      rintro target rfl
      cases hjump
    · rw [hframe, ht]
      rfl
  cases i with
  | jump target =>
    cases h
    rw [ht]
    exact ⟨rfl, rfl, .target rfl, .inl ⟨by simp, rfl⟩⟩
  | jumpIfFalse target =>
    simp only [outcome, bind_apply, pop_apply] at h
    cases hstack : t.frame.stack with
    | nil =>
      rw [hstack] at h
      cases h
    | cons v rest =>
      rw [hstack] at h
      cases v with
      | number n =>
        simp only at h
        split at h
        · cases h
          rw [ht]
          exact ⟨rfl, rfl, .target rfl, .inl ⟨by simp, rfl⟩⟩
        · cases h
          exact ⟨by rw [ht]; rfl, by rw [ht]; rfl, hnext (by simp), .inl ⟨by simp, by rw [ht]; rfl⟩⟩
      | _ => cases h
  | storeLocal slot =>
    simp only [outcome, bind_apply, pop_apply] at h
    cases hstack : t.frame.stack with
    | nil =>
      rw [hstack] at h
      cases h
    | cons v rest =>
      rw [hstack] at h
      simp only [get_apply] at h
      split at h
      · rename_i hslot
        cases h
        refine ⟨by rw [ht]; rfl, by rw [ht]; rfl, hnext (by simp), .inr ⟨slot, v, rfl, ?_, ?_⟩⟩
        · rw [ht] at hslot
          exact hslot
        · rw [ht]
          rfl
      · cases h
  | _ => exact hordinary rfl (by simp)

theorem advances_answer {result : Option Value} (hi : s.instruction? = some i)
    (hends : i = .returnValue ∨ i = .returnVoid) (hcallers : t.callers = s.callers)
    (hworld : t.world = s.world) (h : t.answer result = .running s') : s.Advances p s' := by
  unfold State.answer at h
  split at h
  · cases h
  · rename_i frame callers _ hc
    cases h
    exact .back hi hends (hcallers.symm.trans hc) rfl hworld
  · rename_i frame callers v hc
    cases h
    exact .back hi hends (hcallers.symm.trans hc) rfl hworld
  · cases h

/-- Every step that goes on stays within the running call, begins a call or ends one. -/
theorem advances_of_free (h : p.free s = .running s') : s.Advances p s' := by
  obtain ⟨r, hr, h⟩ : ∃ r, s.Frees p r ∧ r = .running s' := ⟨_, p.frees s, h⟩
  cases hr with
  | past | empty => cases h
  | call hi =>
    obtain ⟨r, hr, hargs, rfl⟩ := State.call_eq_running h
    exact .call hi hr hargs rfl
  | value hi => exact advances_answer hi (.inl rfl) rfl rfl h
  | void hi => exact advances_answer hi (.inr rfl) rfl rfl h
  | @outcome i hi _ hvalue hvoid =>
    rcases ho : p.outcome i (s.goto (s.frame.next + 1) s.frame.stack) with ⟨e | v?, t⟩ <;>
      rw [ho] at h
    · cases h
    · obtain ⟨hcallers, hroutine, hnext, hlocals⟩ := moves_outcome hvalue hvoid rfl ho
      cases v? <;> cases h <;> exact .within hi hcallers ⟨hroutine, hnext, hlocals⟩

theorem advances_of_step (h : p.step s = .running s') : s.Advances p s' :=
  advances_of_free (free_eq_running h)

end Program

end EventScript
