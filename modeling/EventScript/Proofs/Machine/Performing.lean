import EventScript.Proofs.Machine.Operating
import EventScript.Proofs.Shape

/-!
What a step is put together from. The next instruction says which pieces a step may have, so what
these pieces keep is kept by every step that has no others.
-/
namespace EventScript

namespace Machine

variable {p : Program} {i : Instruction}

/-- Put together from what may be done for the instruction before its result goes onto the stack. -/
inductive Performs (p : Program) (i : Instruction) : {α : Type} → Machine α → Prop where
  | pure {α : Type} (a : α) : Performs p i (Pure.pure a : Machine α)
  | fault {α : Type} (f : CodeFault) : Performs p i (fault f : Machine α)
  | mismatch {α : Type} (expected : String) (v : Value) :
      Performs p i (MonadExcept.throw (.mismatch expected v) : Machine α)
  | unassigned {α : Type} {slot : Nat} (loads : i = .loadLocal slot) (function name : String) :
      Performs p i (MonadExcept.throw (.unassigned function name) : Machine α)
  | get : Performs p i (MonadState.get : Machine State)
  | pop : Performs p i pop
  | popMany (count : Nat) : Performs p i (popMany count)
  | jump {target : Nat} (jumps : i.target? = some target) : Performs p i (jump target)
  | store {slot : Nat} (stores : i = .storeLocal slot) (v : Value) : Performs p i (modify fun s =>
      { s with frame.locals := s.frame.locals.setIfInBounds slot (some v) })
  | native (op : NativeOp) : Performs p i op.run
  | host {index argc : Nat} {returns : Bool} {call : HostFunction}
      (calls : i = .invokeHost index argc returns) (known : call ∈ p.hosts) (args : List Value) :
      Performs p i (onHeap (call args))
  | bind {α β : Type} {m : Machine α} {f : α → Machine β} (first : Performs p i m)
      (others : ∀ a, Performs p i (f a)) : Performs p i (m >>= f)

theorem Performs.popNumber : Performs p i popNumber :=
  .bind .pop fun v => by
    cases v with
    | number n => exact .pure n
    | _ => exact .mismatch _ _

end Machine

open Machine

theorem Program.performs (p : Program) (i : Instruction) : Performs p i (p.outcome i) := by
  cases i with
  | pushConstant i =>
    simp only [outcome]
    split
    · exact .pure _
    · exact .fault _
  | loadLocal slot =>
    refine .bind .get fun s => ?_
    simp only
    split
    · exact .pure _
    · exact .unassigned rfl _ _
    · exact .fault _
  | storeLocal slot =>
    refine .bind .pop fun v => .bind .get fun s => ?_
    split
    · exact .bind (.store rfl v) fun _ => .pure _
    · exact .fault _
  | pop => exact .bind .pop fun _ => .pure _
  | arithmetic | lessThan | atLeast =>
    exact .bind .popNumber fun _ => .bind .popNumber fun _ => .pure _
  | expect kind =>
    refine .bind .get fun s => ?_
    split
    · exact .fault _
    · split
      · exact .mismatch _ _
      · exact .pure _
  | toText =>
    refine .bind .pop fun v => ?_
    split
    · exact .pure _
    · exact .pure _
    · exact .mismatch _ _
  | jumpIfFalse target =>
    refine .bind .pop fun v => ?_
    split
    · split
      · exact .bind (.jump rfl) fun _ => .pure _
      · exact .pure _
    · exact .mismatch _ _
  | jump target => exact .bind (.jump rfl) fun _ => .pure _
  | native op => exact .native op
  | invokeHost index argc returns =>
    refine .bind (.popMany argc) fun args => ?_
    split
    · rename_i call hcall
      exact .bind (.host rfl (Array.mem_of_getElem? hcall) args) fun _ => .pure _
    · exact .fault _
  | call | returnValue | returnVoid => exact .pure _

/-- What a step without limits is, by the next instruction. -/
inductive State.Frees (p : Program) (s : State) : Progress → Prop where
  | past (instruction : s.instruction? = none) : s.Frees p (s.fail (.malformed .endOfCode))
  | call {function argc : Nat} {returns : Bool}
      (instruction : s.instruction? = some (.call function argc returns)) :
      s.Frees p ((s.goto (s.frame.next + 1) s.frame.stack).call p function argc returns)
  | empty (instruction : s.instruction? = some .returnValue) (stack : s.frame.stack = []) :
      s.Frees p (s.fail (.malformed .stackUnderflow))
  | value {v : Value} {rest : List Value} (instruction : s.instruction? = some .returnValue)
      (stack : s.frame.stack = v :: rest) :
      s.Frees p ((s.goto (s.frame.next + 1) rest).answer (some v))
  | void (instruction : s.instruction? = some .returnVoid) :
      s.Frees p ((s.goto (s.frame.next + 1) s.frame.stack).answer none)
  | outcome {i : Instruction} (instruction : s.instruction? = some i)
      (calls : ∀ function argc returns, i ≠ .call function argc returns)
      (value : i ≠ .returnValue) (void : i ≠ .returnVoid) :
      s.Frees p (deliver (p.outcome i (s.goto (s.frame.next + 1) s.frame.stack)))

theorem Program.frees (p : Program) (s : State) : s.Frees p (p.free s) := by
  cases hi : s.instruction? with
  | none =>
    simp only [free, hi]
    exact .past hi
  | some i =>
    simp only [free, hi]
    cases i with
    | call function argc returns => exact .call hi
    | returnValue =>
      simp only [State.goto_stack]
      cases hstack : s.frame.stack with
      | nil => exact .empty hi hstack
      | cons v rest => exact .value hi hstack
    | returnVoid => exact .void hi
    | _ => exact .outcome hi nofun nofun nofun

/-- A call that begins finds its routine and its arguments. -/
theorem State.call_eq_running {p : Program} {s s' : State} {function argc : Nat} {returns : Bool}
    (h : s.call p function argc returns = .running s') : ∃ r, p.routines[function]? = some r ∧
      argc ≤ s.frame.stack.length ∧ s' = s.enter r argc returns := by
  rw [State.call] at h
  split at h
  · cases h
  · rename_i hargs
    split at h
    · cases h
    · rename_i r hr
      cases h
      exact ⟨r, hr, Nat.not_lt.1 hargs, rfl⟩

end EventScript
