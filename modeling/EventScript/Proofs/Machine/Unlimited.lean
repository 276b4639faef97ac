import EventScript.Proofs.Machine.Effect

/-!
The machine without limits. A step of a program is the same step without limits, unless that would
go beyond a limit of the program: then it is refused.
-/
namespace EventScript

/-- A world in which nothing has happened yet. -/
def World.blank : World where
  ids _ := default

namespace State

/-- The state in which a run of a routine begins. -/
def start (r : Routine) (args : List Value) (world : World) : State where
  frame := { routine := r, locals := r.slots args }
  world

/-- The calls under way, the running one first. -/
def frames (s : State) : List Frame := s.frame :: s.callers.map (·.1)

@[simp] theorem length_frames (s : State) : s.frames.length = s.callers.length + 1 := by
  rw [frames, List.length_cons, List.length_map]

def instruction? (s : State) : Option Instruction := s.frame.routine.code[s.frame.next]?

/-- The running call at an offset with these operands. -/
def goto (s : State) (next : Nat) (stack : List Value) : State :=
  { s with frame.next := next, frame.stack := stack }

def inWorld (s : State) (world : World) : State := { s with world }

@[simp] theorem goto_stack (s : State) (next : Nat) (stack : List Value) :
    (s.goto next stack).frame.stack = stack := rfl

@[simp] theorem goto_locals (s : State) (next : Nat) (stack : List Value) :
    (s.goto next stack).frame.locals = s.frame.locals := rfl

def push (s : State) (v : Value) : State := { s with frame.stack := v :: s.frame.stack }

def fail (s : State) (e : RuntimeError) : Progress := .finished (.error e) s.world

/-- Goes on with the innermost waiting call, or answers if none waits. -/
def answer (s : State) (result : Option Value) : Progress :=
  match s.callers, result with
  | [], result => .finished (.ok result) s.world
  | (frame, false) :: callers, _ => .running { s with frame, callers }
  | (frame, true) :: callers, some v => .running (push { s with frame, callers } v)
  | (_, true) :: _, none => s.fail (.malformed .missingResult)

/-- The state in which a call of a routine begins: the topmost operands are its arguments. -/
def enter (s : State) (r : Routine) (argc : Nat) (returns : Bool) : State :=
  { s with
    frame := { routine := r, locals := r.slots (s.frame.stack.take argc).reverse }
    callers := ({ s.frame with stack := s.frame.stack.drop argc }, returns) :: s.callers }

/-- Begins a call of the routine at a position. -/
def call (s : State) (p : Program) (function argc : Nat) (returns : Bool) : Progress :=
  if s.frame.stack.length < argc then s.fail (.malformed .stackUnderflow)
  else match p.routines[function]? with
    | none => s.fail (.malformed .functionIndex)
    | some r => .running (s.enter r argc returns)

/-- A push that the limit refuses if the stack is full. -/
def pushWithin (limit : Nat) (s : State) (v : Value) : Progress :=
  if limit ≤ s.frame.stack.length then s.fail (.stackOverflow limit) else .running (s.push v)

/-- An answer whose receiver holds at most so many operands. -/
def answerWithin (limit : Nat) (s : State) (result : Option Value) : Progress :=
  match s.callers, result with
  | [], result => .finished (.ok result) s.world
  | (frame, false) :: callers, _ => .running { s with frame, callers }
  | (frame, true) :: callers, some v => pushWithin limit { s with frame, callers } v
  | (_, true) :: _, none => s.fail (.malformed .missingResult)

/-- Begins a call if it is not one too many, with or without a routine at the position. -/
def callWithin (s : State) (p : Program) (function argc : Nat) (returns : Bool) : Progress :=
  if argc ≤ s.frame.stack.length ∧ p.limits.callDepth ≤ s.callers.length + 1 then
    s.fail (.callDepth p.limits.callDepth)
  else s.call p function argc returns

end State

namespace Machine

def numbers (op : Number → Number → Value) : Machine (Option Value) := do
  let b ← popNumber
  let a ← popNumber
  return some (op a b)

/-- The result of a part of a run goes onto the stack. -/
def deliver : Except RuntimeError (Option Value) × State → Progress
  | (.ok (some v), s) => .running (s.push v)
  | (.ok none, s) => .running s
  | (.error e, s) => s.fail e

/-- The same under a limit. -/
def deliverWithin (limit : Nat) : Except RuntimeError (Option Value) × State → Progress
  | (.ok (some v), s) => s.pushWithin limit v
  | (.ok none, s) => .running s
  | (.error e, s) => s.fail e

end Machine

open Machine in
/-- What an instruction does before its result, if it has one, goes onto the stack. -/
def Program.outcome (p : Program) : Instruction → Machine (Option Value)
  | .pushConstant i => do
    match p.constants[i]? with
    | some l => return some l.toValue
    | none => fault .constantIndex
  | .loadLocal slot => do
    let frame := (← get).frame
    match frame.locals[slot]? with
    | some (some v) => return some v
    | some none => throw (.unassigned frame.routine.name (frame.routine.localName slot))
    | none => fault .localSlot
  | .storeLocal slot => do
    let v ← pop
    if slot < (← get).frame.locals.size then
      modify fun s => { s with frame.locals := s.frame.locals.setIfInBounds slot (some v) }
      return none
    else fault .localSlot
  | .pop => do
    let _ ← pop
    return none
  | .arithmetic op => numbers fun a b => .number (op.apply a b)
  | .lessThan => numbers fun a b => .ofBool (a.below b)
  | .atLeast => numbers fun a b => .ofBool (a.atLeast b)
  | .expect kind => do
    match (← get).frame.stack with
    | [] => fault .stackUnderflow
    | v :: _ => if v.kind ≠ kind then throw (.mismatch kind.name v) else return none
  | .toText => do
    match ← pop with
    | .string s => return some (.text (.plain s))
    | .text t => return some (.text t)
    | v => throw (.mismatch "string" v)
  | .jumpIfFalse target => do
    match ← pop with
    | .number n =>
      if !n.truthy then jump target
      return none
    | v => throw (.mismatch "bool" v)
  | .jump target => do
    Machine.jump target
    return none
  | .native op => op.run
  | .invokeHost index argc returns => do
    let args ← popMany argc
    match p.hosts[index]? with
    | some call =>
      let v ← onHeap (call args)
      return if returns then some v else none
    | none => fault .hostIndex
  | .call .. | .returnValue | .returnVoid => return none

/-- The callback that the next instruction calls, with the arguments it gets. -/
def Program.invocation? (p : Program) (s : State) : Option (HostFunction × List Value) :=
  match s.instruction? with
  | some (.invokeHost i argc _) =>
    if argc ≤ s.frame.stack.length then
      (p.hosts[i]?).map fun call => (call, (s.frame.stack.take argc).reverse)
    else none
  | _ => none

/-- A step that no limit can refuse. -/
def Program.free (p : Program) (s : State) : Progress :=
  match s.instruction? with
  | none => s.fail (.malformed .endOfCode)
  | some i =>
    let s := s.goto (s.frame.next + 1) s.frame.stack
    match i with
    | .call function argc returns => s.call p function argc returns
    | .returnValue =>
      match s.frame.stack with
      | [] => s.fail (.malformed .stackUnderflow)
      | v :: rest => (s.withStack rest).answer (some v)
    | .returnVoid => s.answer none
    | i => Machine.deliver (p.outcome i s)

/-- The error is about a limit that the state goes beyond. -/
def Program.Exceeds (p : Program) (s : State) (e : RuntimeError) : Prop :=
  e = .stackOverflow p.limits.stack ∧ p.limits.stack < s.frame.stack.length ∨
    e = .callDepth p.limits.callDepth ∧ p.limits.callDepth ≤ s.callers.length

namespace Machine

theorem get_apply (s : State) : (get : Machine State) s = (.ok s, s) := rfl

theorem modify_apply (f : State → State) (s : State) : (modify f : Machine Unit) s = (.ok (), f s) :=
  rfl

theorem pure_apply {α : Type} (a : α) (s : State) : (pure a : Machine α) s = (.ok a, s) := rfl

theorem except_apply {α : Type} (x : Except RuntimeError α) (s : State) :
    (liftM x : Machine α) s = (x, s) := by
  cases x <;> rfl

theorem jump_apply (target : Nat) (s : State) :
    jump target s = (.ok (), { s with frame.next := target }) := rfl

theorem push_apply (limit : Nat) (v : Value) (s : State) : push limit v s =
    if limit ≤ s.frame.stack.length then (.error (.stackOverflow limit), s)
    else (.ok (), s.push v) := by
  simp only [push, bind_apply, get_apply]
  split <;> rfl

theorem pop_apply (s : State) : pop s = match s.frame.stack with
    | [] => (.error (.malformed .stackUnderflow), s)
    | v :: rest => (.ok v, s.withStack rest) := by
  simp only [pop, bind_apply, get_apply]
  cases s.frame.stack <;> rfl

theorem popMany_apply (count : Nat) (s : State) : popMany count s =
    if s.frame.stack.length < count then (.error (.malformed .stackUnderflow), s)
    else (.ok (s.frame.stack.take count).reverse, s.withStack (s.frame.stack.drop count)) := by
  simp only [popMany, bind_apply, get_apply]
  split <;> rfl

/-- The same under a limit. -/
def deliverUpTo (limit : Nat) : Option Value → Machine Unit
  | some v => push limit v
  | none => return ()

end Machine

open Machine

namespace Program

variable {p : Program}

theorem perform_eq (p : Program) (i : Instruction) :
    p.perform i = p.outcome i >>= deliverUpTo p.limits.stack := by
  funext s
  cases i with
  | pushConstant i =>
    simp only [perform, outcome, bind_apply]
    cases p.constants[i]? <;> rfl
  | loadLocal slot =>
    simp only [perform, outcome, bind_apply, get_apply]
    rcases s.frame.locals[slot]? with _ | _ | v <;> rfl
  | storeLocal slot =>
    simp only [perform, outcome, bind_apply, pop_apply]
    cases s.frame.stack with
    | nil => rfl
    | cons v rest =>
      simp only [get_apply]
      split <;> rfl
  | pop =>
    simp only [perform, outcome, bind_apply, pop_apply]
    cases s.frame.stack <;> rfl
  | arithmetic op =>
    simp only [perform, outcome, binary, numbers, bind_assoc, pure_bind, deliverUpTo]
  | lessThan =>
    simp only [perform, outcome, binary, numbers, bind_assoc, pure_bind, deliverUpTo]
  | atLeast =>
    simp only [perform, outcome, binary, numbers, bind_assoc, pure_bind, deliverUpTo]
  | expect kind =>
    simp only [perform, outcome, bind_apply, get_apply]
    cases s.frame.stack with
    | nil => rfl
    | cons v rest =>
      simp only
      split <;> rfl
  | toText =>
    simp only [perform, outcome, bind_apply, pop_apply]
    cases s.frame.stack with
    | nil => rfl
    | cons v rest => cases v <;> rfl
  | jumpIfFalse target =>
    simp only [perform, outcome, bind_apply, pop_apply]
    cases s.frame.stack with
    | nil => rfl
    | cons v rest =>
      cases v with
      | number n =>
        simp only
        split <;> rfl
      | _ => rfl
  | jump target => rfl
  | native op =>
    simp only [perform, outcome, bind_apply]
    rcases op.run s with ⟨e | _ | v, t⟩ <;> rfl
  | invokeHost index argc returns =>
    simp only [perform, outcome, bind_apply, popMany_apply]
    by_cases h : s.frame.stack.length < argc
    · simp only [h, if_true]
    · simp only [h, if_false]
      cases p.hosts[index]? with
      | none => rfl
      | some call =>
        simp only [bind_apply]
        rcases onHeap (call _) _ with ⟨e | v, t⟩
        · rfl
        · cases returns <;> rfl
  | call | returnValue | returnVoid => rfl

theorem step_eq (p : Program) (s : State) : p.step s = match p.advance s with
    | (.ok none, s) => .running s
    | (.ok (some result), s) => .finished (.ok result) s.world
    | (.error e, s) => s.fail e := rfl

/-- What a step does, beside what it does without limits. -/
inductive Moves (p : Program) (s : State) : Progress → Progress → Prop where
  | fault (f : CodeFault)
      (hi : ∀ function argc returns, s.instruction? ≠ some (.call function argc returns)) :
      p.Moves s (s.fail (.malformed f)) (s.fail (.malformed f))
  | deliver {i : Instruction} (hi : s.instruction? = some i)
      (hcall : ∀ function argc returns, i ≠ .call function argc returns) (t : State)
      (ht : t = s.goto (s.frame.next + 1) s.frame.stack) :
      p.Moves s (deliverWithin p.limits.stack (p.outcome i t)) (Machine.deliver (p.outcome i t))
  | answer (hi : ∀ function argc returns, s.instruction? ≠ some (.call function argc returns))
      (t : State) (ht : t.callers = s.callers) (result : Option Value) :
      p.Moves s (t.answerWithin p.limits.stack result) (t.answer result)
  | call {function argc : Nat} {returns : Bool}
      (hi : s.instruction? = some (.call function argc returns)) (t : State)
      (ht : t = s.goto (s.frame.next + 1) s.frame.stack) :
      p.Moves s (t.callWithin p function argc returns) (t.call p function argc returns)

private theorem step_deliver {s t : State} {i : Instruction}
    (hadvance : p.advance s = (p.perform i >>= fun _ => return none) t) :
    p.step s = deliverWithin p.limits.stack (p.outcome i t) := by
  rw [step_eq, hadvance, perform_eq, bind_apply, bind_apply]
  rcases p.outcome i t with ⟨e | _ | v, u⟩
  · rfl
  · rfl
  · simp only [deliverUpTo, push_apply, deliverWithin, State.pushWithin]
    by_cases hfull : p.limits.stack ≤ u.frame.stack.length
    · simp only [hfull, if_true]
    · simp only [hfull, if_false]
      rfl

private theorem step_answer {s t : State} {result : Option Value}
    (hadvance : p.advance s = leave p.limits.stack result t) :
    p.step s = t.answerWithin p.limits.stack result := by
  rw [step_eq, hadvance]
  simp only [leave, bind_apply, get_apply]
  rcases hc : t.callers with _ | ⟨⟨frame, _ | _⟩, callers⟩
  · simp only [State.answerWithin, hc]
    rfl
  · simp only [State.answerWithin, hc]
    rfl
  · cases result with
    | none =>
      simp only [State.answerWithin, hc]
      rfl
    | some v =>
      simp only [State.answerWithin, hc, bind_apply, modify_apply, if_true, push_apply,
        State.pushWithin]
      by_cases hfull : p.limits.stack ≤ frame.stack.length
      · simp only [hfull, if_true]
      · simp only [hfull, if_false]
        rfl

private theorem step_call {s : State} {function argc : Nat} {returns : Bool}
    (hi : s.frame.routine.code[s.frame.next]? = some (.call function argc returns)) :
    p.step s =
      (s.goto (s.frame.next + 1) s.frame.stack).callWithin p function argc returns := by
  simp only [step_eq, advance, bind_apply, get_apply, hi, jump_apply, popMany_apply]
  by_cases hargs : s.frame.stack.length < argc
  · simp only [hargs, if_true]
    rw [State.callWithin, if_neg fun h => absurd h.1 (Nat.not_le.2 hargs), State.call,
      State.goto_stack, if_pos hargs]
    rfl
  · simp only [hargs, if_false, enter, except_apply, State.withStack]
    by_cases hdepth : p.limits.callDepth ≤ s.callers.length + 1
    · simp only [ge_iff_le, hdepth, if_true]
      rw [State.callWithin, if_pos ⟨Nat.not_lt.1 hargs, hdepth⟩]
      rfl
    · simp only [ge_iff_le, hdepth, if_false]
      rw [State.callWithin, if_neg fun h => absurd h.2 hdepth, State.call, State.goto_stack,
        if_neg hargs]
      cases p.routines[function]? <;> rfl

theorem moves (p : Program) (s : State) : p.Moves s (p.step s) (p.free s) := by
  cases hi : s.frame.routine.code[s.frame.next]? with
  | none =>
    have hstep : p.step s = s.fail (.malformed .endOfCode) := by
      simp only [step_eq, advance, bind_apply, get_apply, hi]
      rfl
    have hfree : p.free s = s.fail (.malformed .endOfCode) := by
      simp only [free, State.instruction?, hi]
    rw [hstep, hfree]
    exact .fault _ fun _ _ _ h => nomatch hi.symm.trans h
  | some i =>
    cases i with
    | call function argc returns =>
      have hfree : p.free s = State.call (s.goto (s.frame.next + 1) s.frame.stack) p function argc
          returns := by
        simp only [free, State.instruction?, hi]
      rw [step_call hi, hfree]
      exact .call hi _ rfl
    | returnValue =>
      have hne : ∀ function argc returns, s.instruction? ≠ some (.call function argc returns) :=
        fun _ _ _ h => nomatch hi.symm.trans h
      cases hstack : s.frame.stack with
      | nil =>
        have hstep : p.step s = s.fail (.malformed .stackUnderflow) := by
          simp only [step_eq, advance, bind_apply, get_apply, hi, jump_apply, pop_apply, hstack]
          rfl
        have hfree : p.free s = s.fail (.malformed .stackUnderflow) := by
          simp only [free, State.instruction?, hi, State.goto_stack, hstack]
          rfl
        rw [hstep, hfree]
        exact .fault _ hne
      | cons v rest =>
        have hstep : p.step s = (s.goto (s.frame.next + 1) rest).answerWithin p.limits.stack
            (some v) := by
          apply step_answer
          simp only [advance, bind_apply, get_apply, hi, jump_apply, pop_apply, hstack]
          rfl
        have hfree : p.free s = (s.goto (s.frame.next + 1) rest).answer (some v) := by
          simp only [free, State.instruction?, hi, State.goto_stack, hstack]
          rfl
        rw [hstep, hfree]
        exact .answer hne _ rfl _
    | returnVoid =>
      have hstep : p.step s = (s.goto (s.frame.next + 1) s.frame.stack).answerWithin
          p.limits.stack none := by
        apply step_answer
        simp only [advance, bind_apply, get_apply, hi]
        rfl
      have hfree : p.free s = (s.goto (s.frame.next + 1) s.frame.stack).answer none := by
        simp only [free, State.instruction?, hi]
      rw [hstep, hfree]
      exact .answer (fun _ _ _ h => nomatch hi.symm.trans h) _ rfl _
    | _ =>
      rw [step_deliver (t := s.goto (s.frame.next + 1) s.frame.stack)]
      · have h := Moves.deliver (p := p) hi (fun _ _ _ h => nomatch h) _ rfl
        simpa only [free, State.instruction?, hi] using h
      · simp only [advance, bind_apply, get_apply, hi]
        rfl

/-- A limit refuses a step that would go beyond it. -/
def Refuses (p : Program) (s : State) (r : Progress) : Prop :=
  ∃ e w, r = .finished (.error e) w ∧
    ((∃ s', p.free s = .running s' ∧ p.Exceeds s' e) ∨
      e = .callDepth p.limits.callDepth ∧ p.limits.callDepth ≤ s.callers.length + 1)

private theorem push_or_refuses {s t : State} {v : Value} (hfree : p.free s = .running (t.push v)) :
    t.pushWithin p.limits.stack v = .running (t.push v) ∨
      p.Refuses s (t.pushWithin p.limits.stack v) := by
  rw [State.pushWithin]
  split
  · next hfull => exact .inr ⟨_, _, rfl, .inl ⟨_, hfree, .inl ⟨rfl, Nat.lt_succ_of_le hfull⟩⟩⟩
  · exact .inl rfl

/-- A step is the step without limits, or a limit refuses it. -/
theorem step_eq_free_or_refuses (p : Program) (s : State) :
    p.step s = p.free s ∨ p.Refuses s (p.step s) := by
  have hmoves := p.moves s
  generalize hstep : p.step s = step, hfree : p.free s = free at hmoves
  cases hmoves with
  | fault => exact .inl rfl
  | @deliver i _ _ t =>
    rcases ho : p.outcome i t with ⟨e | _ | v, u⟩ <;> rw [ho] at hfree
    · exact .inl rfl
    · exact .inl rfl
    · exact push_or_refuses hfree
  | answer _ t _ result =>
    rcases hc : t.callers with _ | ⟨⟨frame, _ | _⟩, callers⟩ <;>
      simp only [State.answerWithin, State.answer, hc] at hfree ⊢
    · exact .inl trivial
    · exact .inl trivial
    · cases result with
      | none => exact .inl rfl
      | some v => exact push_or_refuses hfree
  | @call function argc returns hi t ht =>
    rw [State.callWithin]
    split
    · next hlimit =>
      obtain ⟨hargs, hdepth⟩ := hlimit
      subst ht
      refine .inr ⟨_, _, rfl, ?_⟩
      cases hr : p.routines[function]? with
      | none => exact .inr ⟨rfl, hdepth⟩
      | some r =>
        simp only [State.call, Nat.not_lt.2 hargs, if_false, hr] at hfree
        exact .inl ⟨_, hfree, .inr ⟨rfl, hdepth⟩⟩
    · exact .inl rfl

theorem free_eq_running {s s' : State} (h : p.step s = .running s') : p.free s = .running s' := by
  rcases step_eq_free_or_refuses p s with heq | ⟨e, w, heq, _⟩
  · rw [← heq, h]
  · rw [h] at heq
    cases heq

theorem free_eq_answer {s : State} {result : Option Value} {w : World}
    (h : p.step s = .finished (.ok result) w) : p.free s = .finished (.ok result) w := by
  rcases step_eq_free_or_refuses p s with heq | ⟨e, w, heq, _⟩
  · rw [← heq, h]
  · rw [h] at heq
    cases heq

/-- An error is raised without limits, or is about a limit that a step would go beyond. -/
theorem free_eq_error {s : State} {e : RuntimeError} {w : World}
    (h : p.step s = .finished (.error e) w) : p.free s = .finished (.error e) w ∨
      e = .callDepth p.limits.callDepth ∨ e = .stackOverflow p.limits.stack ∧
        ∃ s', p.free s = .running s' ∧ p.limits.stack < s'.frame.stack.length := by
  rcases step_eq_free_or_refuses p s with heq | ⟨e', w', heq, hwhy⟩
  · exact .inl (by rw [← heq, h])
  · right
    rw [h] at heq
    cases heq
    rcases hwhy with ⟨s', hs', ⟨he, hlimit⟩ | ⟨he, _⟩⟩ | ⟨he, _⟩
    · exact .inr ⟨he, s', hs', hlimit⟩
    · exact .inl he
    · exact .inl he

end Program

namespace Effect

/-- The right operand is looked at first. -/
def numbers (op : Number → Number → Value) (a b : Value) : Effect (Option Value) := do
  let b ← number b
  let a ← number a
  return some (op a b)

def toText : Value → Effect (Option Value)
  | .string s => return some (.text (.plain s))
  | .text t => return some (.text t)
  | v => throw (.mismatch "string" v)

/-- What a condition says. -/
def truth : Value → Effect Bool
  | .number n => return n.truthy
  | v => throw (.mismatch "bool" v)

/-- Calls back, and keeps the answer if it is wanted. -/
def host (call : HostFunction) (args : List Value) (returns : Bool) : Effect (Option Value) := do
  let v ← onHeap (call args)
  return if returns then some v else none

end Effect

namespace Program

/-! ### Instructions one by one -/

variable {p : Program} {s : State} {rest : List Value} {v : Value}

theorem takes_numbers {op : Number → Number → Value} {a b : Value} :
    Takes [b, a] (numbers op) (Effect.numbers op a b) :=
  takes_bind takes_popNumber fun _ => takes_bind takes_popNumber fun _ => takes_pure _

theorem takes_toText : Takes [v] (p.outcome .toText) (Effect.toText v) := by
  refine takes_pop_bind ?_
  cases v <;> first | exact takes_pure _ | exact takes_throw _

theorem takes_popMany_bind {α : Type} {args : List Value} {argc : Nat} {f : List Value → Machine α}
    {x : Effect α} (hargs : args.length = argc) (h : Takes [] (f args) x) :
    Takes args.reverse (popMany argc >>= f) x := by
  intro s rest
  rw [bind_apply, popMany_apply]
  have hlength : argc = args.reverse.length := by simp [hargs]
  simp only [State.withStack, List.length_append, ← hlength, Nat.not_lt.2 (Nat.le_add_right argc _),
    if_false]
  rw [List.take_left' hlength.symm, List.drop_left' hlength.symm, List.reverse_reverse]
  exact h s rest

theorem takes_invokeHost {i argc : Nat} {returns : Bool} {args : List Value} {call : HostFunction}
    (hargs : args.length = argc) (hcall : p.hosts[i]? = some call) :
    Takes args.reverse (p.outcome (.invokeHost i argc returns))
      (Effect.host call args returns) := by
  refine takes_popMany_bind hargs ?_
  simp only [hcall]
  exact takes_bind_lift (takes_onHeap _) fun _ => takes_pure _

theorem free_of_takes {i : Instruction} {operands : List Value} {x : Effect (Option Value)}
    (hfree : p.free s = deliver (p.outcome i (s.goto (s.frame.next + 1) s.frame.stack)))
    (ht : Takes operands (p.outcome i) x) (hs : s.frame.stack = operands ++ rest) :
    p.free s = match x s.world with
      | (.ok v?, w) => .running ((s.goto (s.frame.next + 1) (v?.toList ++ rest)).inWorld w)
      | (.error e, w) => .finished (.error e) w := by
  have hstate : (s.goto (s.frame.next + 1) s.frame.stack).withStack (operands ++ rest) =
      s.goto (s.frame.next + 1) s.frame.stack := by
    rw [← hs]
    rfl
  have ht := ht (s.goto (s.frame.next + 1) s.frame.stack) rest
  rw [settle_lift, hstate] at ht
  rw [hfree]
  have hw : ((s.goto (s.frame.next + 1) s.frame.stack).withStack rest).world = s.world := rfl
  rw [hw] at ht
  rcases hx : x s.world with ⟨e | v?, w⟩ <;>
    rcases ho : p.outcome i (s.goto (s.frame.next + 1) s.frame.stack) with ⟨e' | v?', t⟩ <;>
    rw [hx, ho] at ht
  · simp only [settle, Prod.mk.injEq, Except.error.injEq] at ht
    obtain ⟨rfl, rfl⟩ := ht
    rfl
  · cases ht
  · cases ht
  · simp only [settle, Prod.mk.injEq, Except.ok.injEq] at ht
    obtain ⟨⟨rfl, rfl⟩, _⟩ := ht
    cases v?' <;> rfl

theorem free_pushConstant {i : Nat} {l : Literal} (hi : s.instruction? = some (.pushConstant i))
    (hl : p.constants[i]? = some l) :
    p.free s = .running (s.goto (s.frame.next + 1) (l.toValue :: s.frame.stack)) := by
  simp only [free, hi, outcome, hl]
  rfl

theorem free_loadLocal {slot : Nat} (hi : s.instruction? = some (.loadLocal slot))
    (hv : s.frame.locals[slot]? = some (some v)) :
    p.free s = .running (s.goto (s.frame.next + 1) (v :: s.frame.stack)) := by
  simp only [free, hi, outcome, bind_apply, get_apply, State.goto_locals, hv]
  rfl

theorem free_loadLocal_unassigned {slot : Nat} (hi : s.instruction? = some (.loadLocal slot))
    (hv : s.frame.locals[slot]? = some none) :
    p.free s = s.fail (.unassigned s.frame.routine.name (s.frame.routine.localName slot)) := by
  simp only [free, hi, outcome, bind_apply, get_apply, State.goto_locals, hv]
  rfl

theorem free_storeLocal {slot : Nat} (hi : s.instruction? = some (.storeLocal slot))
    (hs : s.frame.stack = v :: rest) (hslot : slot < s.frame.locals.size) :
    p.free s = .running { s.goto (s.frame.next + 1) rest with
      frame.locals := s.frame.locals.setIfInBounds slot (some v) } := by
  have hbelow : slot < ((s.goto (s.frame.next + 1) (v :: rest)).withStack rest).frame.locals.size :=
    hslot
  simp only [free, hi, outcome, bind_apply, pop_apply, State.goto_stack, hs, get_apply, hbelow,
    if_true]
  rfl

theorem free_pop (hi : s.instruction? = some .pop) (hs : s.frame.stack = v :: rest) :
    p.free s = .running (s.goto (s.frame.next + 1) rest) := by
  simp only [free, hi, outcome, bind_apply, pop_apply, State.goto_stack, hs]
  rfl

theorem free_expect {kind : ValueKind} (hi : s.instruction? = some (.expect kind))
    (hs : s.frame.stack = v :: rest) : p.free s =
      if v.kind = kind then .running (s.goto (s.frame.next + 1) s.frame.stack)
      else s.fail (.mismatch kind.name v) := by
  simp only [free, hi, outcome, bind_apply, get_apply, State.goto_stack, hs]
  by_cases hkind : v.kind = kind
  · simp only [hkind, ne_eq, not_true_eq_false, if_false, if_true]
    rfl
  · simp only [hkind, ne_eq, not_false_eq_true, if_false, if_true]
    rfl

theorem free_jump {target : Nat} (hi : s.instruction? = some (.jump target)) :
    p.free s = .running (s.goto target s.frame.stack) := by
  simp only [free, hi, outcome, bind_apply]
  rfl

theorem free_jumpIfFalse {target : Nat} (hi : s.instruction? = some (.jumpIfFalse target))
    (hs : s.frame.stack = v :: rest) : p.free s = match Effect.truth v s.world with
      | (.ok b, _) => .running (s.goto (if b then s.frame.next + 1 else target) rest)
      | (.error e, w) => .finished (.error e) w := by
  simp only [free, hi, outcome, bind_apply, pop_apply, State.goto_stack, hs]
  cases v with
  | number n =>
    change deliver ((if !n.truthy then (do jump target; return none) else return none : Machine _)
      _) = .running (s.goto (if n.truthy then s.frame.next + 1 else target) rest)
    cases n.truthy <;> rfl
  | _ => rfl

theorem free_arithmetic {op : Arithmetic} {a b : Value}
    (hi : s.instruction? = some (.arithmetic op)) (hs : s.frame.stack = b :: a :: rest) :
    p.free s = match Effect.numbers (fun a b => .number (op.apply a b)) a b s.world with
      | (.ok v?, w) => .running ((s.goto (s.frame.next + 1) (v?.toList ++ rest)).inWorld w)
      | (.error e, w) => .finished (.error e) w :=
  free_of_takes (i := .arithmetic op) (by simp only [free, hi]) takes_numbers hs

theorem free_lessThan {a b : Value} (hi : s.instruction? = some .lessThan)
    (hs : s.frame.stack = b :: a :: rest) :
    p.free s = match Effect.numbers (fun a b => .ofBool (a.below b)) a b s.world with
      | (.ok v?, w) => .running ((s.goto (s.frame.next + 1) (v?.toList ++ rest)).inWorld w)
      | (.error e, w) => .finished (.error e) w :=
  free_of_takes (i := .lessThan) (by simp only [free, hi]) takes_numbers hs

theorem free_atLeast {a b : Value} (hi : s.instruction? = some .atLeast)
    (hs : s.frame.stack = b :: a :: rest) :
    p.free s = match Effect.numbers (fun a b => .ofBool (a.atLeast b)) a b s.world with
      | (.ok v?, w) => .running ((s.goto (s.frame.next + 1) (v?.toList ++ rest)).inWorld w)
      | (.error e, w) => .finished (.error e) w :=
  free_of_takes (i := .atLeast) (by simp only [free, hi]) takes_numbers hs

theorem free_toText (hi : s.instruction? = some .toText) (hs : s.frame.stack = v :: rest) :
    p.free s = match Effect.toText v s.world with
      | (.ok v?, w) => .running ((s.goto (s.frame.next + 1) (v?.toList ++ rest)).inWorld w)
      | (.error e, w) => .finished (.error e) w :=
  free_of_takes (i := .toText) (by simp only [free, hi]) takes_toText hs

theorem free_native {op : NativeOp} {args : List Value} (hi : s.instruction? = some (.native op))
    (hs : s.frame.stack = args.reverse ++ rest) (hargs : args.length = op.arity) :
    p.free s = match op.apply args s.world with
      | (.ok v?, w) => .running ((s.goto (s.frame.next + 1) (v?.toList ++ rest)).inWorld w)
      | (.error e, w) => .finished (.error e) w :=
  free_of_takes (i := .native op) (by simp only [free, hi]) (op.takes args hargs) hs

theorem free_invokeHost {i argc : Nat} {returns : Bool} {args : List Value} {call : HostFunction}
    (hi : s.instruction? = some (.invokeHost i argc returns))
    (hs : s.frame.stack = args.reverse ++ rest) (hargs : args.length = argc)
    (hcall : p.hosts[i]? = some call) :
    p.free s = match Effect.host call args returns s.world with
      | (.ok v?, w) => .running ((s.goto (s.frame.next + 1) (v?.toList ++ rest)).inWorld w)
      | (.error e, w) => .finished (.error e) w :=
  free_of_takes (i := .invokeHost i argc returns) (by simp only [free, hi])
    (takes_invokeHost hargs hcall) hs

theorem free_call {function argc : Nat} {returns : Bool} {r : Routine}
    (hi : s.instruction? = some (.call function argc returns))
    (hargs : argc ≤ s.frame.stack.length) (hr : p.routines[function]? = some r) :
    p.free s = .running ((s.goto (s.frame.next + 1) s.frame.stack).enter r argc returns) := by
  simp only [free, hi, State.call, State.goto_stack, Nat.not_lt.2 hargs, if_false, hr]

theorem free_returnValue (hi : s.instruction? = some .returnValue) (hs : s.frame.stack = v :: rest) :
    p.free s = (s.goto (s.frame.next + 1) rest).answer (some v) := by
  simp only [free, hi, State.goto_stack, hs]
  rfl

theorem free_returnVoid (hi : s.instruction? = some .returnVoid) :
    p.free s = (s.goto (s.frame.next + 1) s.frame.stack).answer none := by
  simp only [free, hi]

end Program

end EventScript
