import EventScript.Proofs.Machine.Operating
import EventScript.Proofs.Machine.Unlimited
import EventScript.Proofs.Positions

/-!
Programs whose routines are alike run in lockstep: they go through the same frames, and answer the
same and leave the same world at every fuel.
-/
namespace EventScript

section

variable {p p' : Program}

/-! ### States -/

/-- The same call in two programs. -/
structure Frame.Alike (p p' : Program) (f f' : Frame) : Prop where
  routine : f.routine.Alike p p' f'.routine
  next : f.next = f'.next
  locals : f.locals = f'.locals
  stack : f.stack = f'.stack

theorem Routine.Alike.frame {r r' : Routine} (h : r.Alike p p' r') (args : List Value) :
    Frame.Alike p p' { routine := r, locals := r.slots args }
      { routine := r', locals := r'.slots args } where
  routine := h
  next := rfl
  locals := by rw [Routine.slots, Routine.slots, h.localCount]
  stack := rfl

/-- Calls that wait for the same. -/
structure State.WaitAlike (p p' : Program) (c c' : Frame × Bool) : Prop where
  frame : c.1.Alike p p' c'.1
  returns : c.2 = c'.2

/-- The same state of a run of two programs. -/
structure State.Alike (p p' : Program) (s s' : State) : Prop where
  frame : s.frame.Alike p p' s'.frame
  callers : List.Forall₂ (WaitAlike p p') s.callers s'.callers
  world : s.world = s'.world

namespace State.Alike

variable {s s' : State}

theorem withStack (h : s.Alike p p' s') (stack : List Value) :
    (s.withStack stack).Alike p p' (s'.withStack stack) :=
  ⟨{ h.frame with stack := rfl }, h.callers, h.world⟩

theorem push (h : s.Alike p p' s') (v : Value) : (s.push v).Alike p p' (s'.push v) :=
  ⟨{ h.frame with stack := congrArg (v :: ·) h.frame.stack }, h.callers, h.world⟩

theorem jump (h : s.Alike p p' s') (next : Nat) :
    State.Alike p p' { s with frame.next := next } { s' with frame.next := next } :=
  ⟨{ h.frame with next := rfl }, h.callers, h.world⟩

theorem store (h : s.Alike p p' s') (slot : Nat) (v : Value) : State.Alike p p'
    { s with frame.locals := s.frame.locals.setIfInBounds slot (some v) }
    { s' with frame.locals := s'.frame.locals.setIfInBounds slot (some v) } :=
  ⟨{ h.frame with locals := congrArg (·.setIfInBounds slot (some v)) h.frame.locals }, h.callers,
    h.world⟩

end State.Alike

end

/-! ### Runs -/

namespace Machine

variable {α β γ δ : Type} {p p' : Program}

/-- Outcomes that agree: the same error, or results that belong together. -/
inductive Agree (p p' : Program) (R : α → β → Prop) :
    Except RuntimeError α × State → Except RuntimeError β × State → Prop where
  | ok {a : α} {b : β} {s s' : State} (result : R a b) (state : s.Alike p p' s') :
      Agree p p' R (.ok a, s) (.ok b, s')
  | error {e : RuntimeError} {s s' : State} (state : s.Alike p p' s') :
      Agree p p' R (.error e, s) (.error e, s')

/-- From the same states both lead to outcomes that agree. -/
def Matches (p p' : Program) (R : α → β → Prop) (m : Machine α) (m' : Machine β) : Prop :=
  ∀ s s', s.Alike p p' s' → Agree p p' R (m s) (m' s')

section

variable {R : α → β → Prop} {S : γ → δ → Prop} {m : Machine α} {m' : Machine β}

theorem matches_bind {f : α → Machine γ} {f' : β → Machine δ} (hm : Matches p p' R m m')
    (hf : ∀ a b, R a b → Matches p p' S (f a) (f' b)) : Matches p p' S (m >>= f) (m' >>= f') := by
  intro s s' h
  rw [bind_apply, bind_apply]
  have hfirst := hm s s' h
  generalize m s = first, m' s' = first' at hfirst
  cases hfirst with
  | ok result state => exact hf _ _ result _ _ state
  | error state => exact .error state

/-- Nothing but the result is passed on. -/
theorem matches_bind_eq {m m' : Machine α} {f : α → Machine γ} {f' : α → Machine δ}
    (hm : Matches p p' Eq m m') (hf : ∀ a, Matches p p' S (f a) (f' a)) :
    Matches p p' S (m >>= f) (m' >>= f') :=
  matches_bind hm fun a _ heq => heq ▸ hf a

theorem matches_pure {a : α} {b : β} (h : R a b) : Matches p p' R (pure a) (pure b) :=
  fun _ _ hs => .ok h hs

theorem matches_throw (e : RuntimeError) : Matches p p' R (throw e) (throw e) :=
  fun _ _ hs => .error hs

theorem matches_fault (f : CodeFault) : Matches p p' R (fault f) (fault f) := matches_throw _

theorem matches_get : Matches p p' (State.Alike p p') get get := fun _ _ hs => .ok hs hs

theorem matches_lift (x : Effect α) : Matches p p' Eq x.lift x.lift := by
  intro s s' h
  rw [lift_apply, lift_apply, h.world]
  have hstate (w : World) : State.Alike p p' { s with world := w } { s' with world := w } :=
    ⟨h.frame, h.callers, rfl⟩
  cases (x s'.world).1 with
  | ok a => exact .ok rfl (hstate _)
  | error e => exact .error (hstate _)

theorem matches_pop : Matches p p' Eq pop pop := by
  intro s s' h
  rw [pop_apply, pop_apply, h.frame.stack]
  cases s'.frame.stack with
  | nil => exact .error h
  | cons v rest => exact .ok rfl (h.withStack rest)

theorem matches_popMany (count : Nat) : Matches p p' Eq (popMany count) (popMany count) := by
  intro s s' h
  rw [popMany_apply, popMany_apply, h.frame.stack]
  split
  · exact .error h
  · exact .ok rfl (h.withStack _)

theorem matches_push {limit : Nat} (v : Value) :
    Matches p p' (fun _ _ => True) (push limit v) (push limit v) := by
  intro s s' h
  rw [push_apply, push_apply, h.frame.stack]
  split
  · exact .error h
  · exact .ok trivial (h.push v)

theorem matches_jump (target : Nat) : Matches p p' (fun _ _ => True) (jump target) (jump target) :=
  fun _ _ h => .ok trivial (h.jump target)

theorem Operates.matches {m : Machine α} (h : Operates m) : Matches p p' Eq m m := by
  induction h with
  | pop => exact matches_pop
  | lift x => exact matches_lift x
  | bind _ _ ih₁ ih₂ => exact matches_bind_eq ih₁ ih₂

end

theorem matches_binary {limit : Nat} {op : Number → Number → Value} :
    Matches p p' (fun _ _ => True) (binary limit op) (binary limit op) :=
  matches_bind_eq Operates.popNumber.matches fun _ =>
    matches_bind_eq Operates.popNumber.matches fun _ => matches_push _

theorem matches_leave {limit : Nat} {result : Option Value} :
    Matches p p' Eq (leave limit result) (leave limit result) := by
  refine matches_bind matches_get fun s s' h => ?_
  have hcallers := h.callers
  generalize s.callers = callers, s'.callers = callers' at hcallers ⊢
  cases hcallers with
  | nil => exact matches_pure rfl
  | @cons c c' rest rest' hc hrest =>
    obtain ⟨frame, returns⟩ := c
    obtain ⟨frame', returns'⟩ := c'
    obtain ⟨hframe, rfl⟩ := hc
    have hresume : Matches p p' (fun _ _ => True)
        (modify fun s => { s with frame, callers := rest } : Machine Unit)
        (modify fun s => { s with frame := frame', callers := rest' }) :=
      fun _ _ h => .ok trivial ⟨hframe, hrest, h.world⟩
    refine matches_bind hresume fun _ _ _ => ?_
    split
    · cases result with
      | none =>
        exact matches_bind (R := fun _ _ => True) (matches_fault _) fun _ _ _ => matches_pure rfl
      | some v => exact matches_bind (matches_push v) fun _ _ _ => matches_pure rfl
    · exact matches_pure rfl

end Machine

open Machine

namespace Program

variable {p p' : Program}

/-- An instruction within a call does the same under both programs. -/
theorem matches_perform (hlimits : p.limits = p'.limits) {i i' : Instruction}
    (h : i.Alike p p' i') : Matches p p' (fun _ _ => True) (p.perform i) (p'.perform i') := by
  cases h with
  | constant left right =>
    simp only [perform, left, right, hlimits]
    exact matches_push _
  | host left right =>
    refine matches_bind_eq (matches_popMany _) fun args => ?_
    simp only [left, right, hlimits]
    refine matches_bind_eq (Operates.onHeap _).matches fun v => ?_
    split
    · exact matches_push _
    · exact matches_pure trivial
  | schema => exact matches_pure trivial
  | plain plain =>
    cases i with
    | pushConstant | invokeHost | call => exact plain.elim
    | loadLocal slot =>
      refine matches_bind matches_get fun s s' h => ?_
      simp only [h.frame.locals, hlimits]
      split
      · exact matches_push _
      · have hname : s.frame.routine.name = s'.frame.routine.name := h.frame.routine.name
        have hslot : s.frame.routine.localName slot = s'.frame.routine.localName slot := by
          rw [Routine.localName, Routine.localName, h.frame.routine.localNames]
        rw [hname, hslot]
        exact matches_throw _
      · exact matches_fault _
    | storeLocal slot =>
      refine matches_bind_eq matches_pop fun v => matches_bind matches_get fun s s' h => ?_
      simp only [h.frame.locals]
      split
      · exact fun _ _ h => .ok trivial (h.store slot v)
      · exact matches_fault _
    | pop => exact matches_bind_eq matches_pop fun _ => matches_pure trivial
    | arithmetic | lessThan | atLeast =>
      simp only [perform, hlimits]
      exact matches_binary
    | expect kind =>
      refine matches_bind matches_get fun s s' h => ?_
      simp only [h.frame.stack]
      split
      · exact matches_fault _
      · split
        · exact matches_throw _
        · exact matches_pure trivial
    | toText =>
      refine matches_bind_eq matches_pop fun v => ?_
      simp only [hlimits]
      split
      · exact matches_push _
      · exact matches_push _
      · exact matches_throw _
    | jumpIfFalse target =>
      refine matches_bind_eq matches_pop fun v => ?_
      split
      · split
        · exact matches_jump _
        · exact matches_pure trivial
      · exact matches_throw _
    | jump target => exact matches_jump _
    | native op =>
      refine matches_bind_eq op.operates.matches fun result => ?_
      simp only [hlimits]
      split
      · exact matches_push _
      · exact matches_pure trivial
    | returnValue | returnVoid => exact matches_pure trivial

/-- A call under way, or the same refusal. -/
theorem enter_alike (h : p.Alike p') {i j depth : Nat} {args : List Value} {r r' : Routine}
    (left : p.routines[i]? = some r) (right : p'.routines[j]? = some r') (name : r.name = r'.name) :
    Matches p p' (Frame.Alike p p') (liftM (p.enter depth i args) : Machine Frame)
      (liftM (p'.enter depth j args)) := by
  intro s s' hs
  have halike := h.routine left right name
  simp only [except_apply, enter, left, right, h.limits]
  split
  · exact .error hs
  · exact .ok (halike.frame args) hs

theorem matches_advance (h : p.Alike p') : Matches p p' Eq p.advance p'.advance := by
  refine matches_bind matches_get fun s s' hs => ?_
  simp only [hs.frame.next]
  rcases hs.frame.routine.instruction s'.frame.next with ⟨hnone, hnone'⟩ | ⟨i, i', hi, hi', halike⟩
  · simp only [hnone, hnone']
    exact matches_fault _
  · simp only [hi, hi']
    refine matches_bind (matches_jump _) fun _ _ _ => ?_
    have hperform : Matches p p' Eq (do p.perform i; return none : Machine (Option (Option Value)))
        (do p'.perform i'; return none) :=
      matches_bind (matches_perform h.limits halike) fun _ _ _ => matches_pure rfl
    cases halike with
    | constant | host => exact hperform
    | schema left right name =>
      refine matches_bind_eq (matches_popMany _) fun args => ?_
      refine matches_bind matches_get fun t t' ht => ?_
      rw [ht.callers.length_eq]
      refine matches_bind (enter_alike h left right name) fun frame frame' hframe => ?_
      refine matches_bind (R := fun _ _ => True) ?_ fun _ _ _ => matches_pure rfl
      exact fun _ _ hu => .ok trivial ⟨hframe, .cons ⟨hu.frame, rfl⟩ hu.callers, hu.world⟩
    | plain plain =>
      cases i with
      | returnValue =>
        refine matches_bind_eq matches_pop fun v => ?_
        rw [h.limits]
        exact matches_leave
      | returnVoid =>
        rw [h.limits]
        exact matches_leave
      | call => exact plain.elim
      | _ => exact hperform

/-- What a step comes to, the same under both programs. -/
inductive Progresses (p p' : Program) : Progress → Progress → Prop where
  | running {s s' : State} (state : s.Alike p p' s') : Progresses p p' (.running s) (.running s')
  | finished {answer : Answer} {world : World} :
      Progresses p p' (.finished answer world) (.finished answer world)

theorem progresses_step (h : p.Alike p') {s s' : State} (hs : s.Alike p p' s') :
    Progresses p p' (p.step s) (p'.step s') := by
  have hadvance := matches_advance h s s' hs
  rw [step_eq, step_eq]
  generalize p.advance s = outcome, p'.advance s' = outcome' at hadvance
  cases hadvance with
  | @ok a _ t t' result state =>
    subst result
    cases a with
    | none => exact .running state
    | some result =>
      simp only [state.world]
      exact .finished
  | error state =>
    simp only [State.fail, state.world]
    exact .finished

theorem run_eq (h : p.Alike p') {fuel : Nat} {s s' : State} (hs : s.Alike p p' s') :
    p.run fuel s = p'.run fuel s' := by
  induction fuel generalizing s s' with
  | zero => rfl
  | succ fuel ih =>
    have hstep := progresses_step h hs
    simp only [run]
    generalize p.step s = progress, p'.step s' = progress' at hstep
    cases hstep with
    | running state => exact ih state
    | finished => rfl

/-- Calls of a schema at its positions in both programs. -/
theorem invoke_eq (h : p.Alike p') {i j : Nat} {r r' : Routine} (left : p.routines[i]? = some r)
    (right : p'.routines[j]? = some r') (name : r.name = r'.name) (fuel : Nat) (args : List Value)
    (world : World) : Callable.invoke ⟨p, .routine i⟩ fuel args world =
      Callable.invoke ⟨p', .routine j⟩ fuel args world := by
  have halike := h.routine left right name
  simp only [Callable.invoke, left, right, halike.checkArguments_eq]
  split
  · rfl
  · simp only [execute, enter, left, right, h.limits]
    by_cases hdepth : 0 ≥ p'.limits.callDepth
    · simp only [hdepth, if_true]
    · simp only [hdepth, if_false]
      exact run_eq h ⟨halike.frame args, .nil, rfl⟩

end Program

end EventScript
