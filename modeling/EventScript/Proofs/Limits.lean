import Mathlib.Algebra.Order.BigOperators.Group.List
import Mathlib.Algebra.Order.Group.Nat
import Mathlib.Data.Nat.Find
import Mathlib.Logic.Function.Iterate
import EventScript.Proofs.Machine.Heights

/-!
Limits only cut runs off. A run goes on as it would without limits, moment by moment, until one of
them would be gone beyond; at that moment it stops with the error about this limit. A call of no
routine counts as one more call.
-/
namespace EventScript

namespace Progress

def world : Progress → World
  | running s => s.world
  | finished _ w => w

def answer? : Progress → Option (Answer × World)
  | running _ => none
  | finished answer w => some (answer, w)

/-- One step more, unless the run is over. -/
def next (step : State → Progress) : Progress → Progress
  | running s => step s
  | finished answer w => finished answer w

theorem iterate_finished (step : State → Progress) (n : Nat) (answer : Answer) (w : World) :
    (next step)^[n] (finished answer w) = finished answer w :=
  Function.iterate_fixed rfl n

end Progress

theorem State.world_call (p : Program) (s : State) (function argc : Nat) (returns : Bool) :
    (s.call p function argc returns).world = s.world := by
  rw [call]
  split
  · rfl
  · split <;> rfl

/-- A state is within the limits. -/
structure Limits.Allow (l : Limits) (s : State) : Prop where
  calls : s.frames.length ≤ l.callDepth
  operands : ∀ f ∈ s.frames, f.stack.length ≤ l.stack

/-- The error about a limit that a state goes beyond. -/
inductive Limits.Exceeded (l : Limits) (s : State) : RuntimeError → Prop where
  | calls (h : l.callDepth < s.frames.length) : l.Exceeded s (.callDepth l.callDepth)
  | operands {f : Frame} (hf : f ∈ s.frames) (h : l.stack < f.stack.length) :
      l.Exceeded s (.stackOverflow l.stack)

namespace Program

/-- The next instruction has its arguments and calls no routine. -/
def CallsNothing (p : Program) (s : State) : Prop := ∃ function argc returns,
  s.instruction? = some (.call function argc returns) ∧ argc ≤ s.frame.stack.length ∧
    p.routines[function]? = none

/-- The error about a limit that the next step goes beyond, were there no limits. -/
def Oversteps (p : Program) (s : State) (e : RuntimeError) : Prop :=
  (∃ s', p.free s = .running s' ∧ p.limits.Exceeded s' e) ∨
    p.CallsNothing s ∧ p.limits.callDepth ≤ s.frames.length ∧ e = .callDepth p.limits.callDepth

/-- The next step is the step without limits, or it stops because that would go beyond one. -/
def CutsStep (p : Program) (s : State) : Prop :=
  (p.step s = p.free s ∧ ∀ e, ¬p.Oversteps s e) ∨
    ∃ e, p.step s = .finished (.error e) (p.free s).world ∧ ∀ e', p.Oversteps s e' ↔ e' = e

/-- A call of the schema at this position after so many instructions. -/
def limited (p : Program) (index : Nat) (args : List Value) (world : World) (n : Nat) : Progress :=
  (Progress.next p.step)^[n] <| match p.enter 0 index args with
    | .ok frame => .running { frame, world }
    | .error e => .finished (.error e) world

/-- The same call without limits. -/
def unlimited (p : Program) (index : Nat) (args : List Value) (world : World) (n : Nat) :
    Progress :=
  (Progress.next p.free)^[n] <| match p.routines[index]? with
    | some r => .running (.start r args world)
    | none => .finished (.error (.malformed .functionIndex)) world

/-- The error about a limit that the call without limits goes beyond at this moment. -/
inductive Crosses (p : Program) (index : Nat) (args : List Value) (world : World) :
    Nat → RuntimeError → Prop where
  | state {n : Nat} {s : State} {e : RuntimeError}
      (hs : p.unlimited index args world n = .running s) (he : p.limits.Exceeded s e) :
      p.Crosses index args world n e
  /-- A call of no routine, with as many calls under way as there may be. -/
  | missing {n : Nat} {s : State} (hs : p.unlimited index args world n = .running s)
      (hcall : p.CallsNothing s) (hdepth : p.limits.callDepth ≤ s.frames.length) :
      p.Crosses index args world (n + 1) (.callDepth p.limits.callDepth)
  /-- The call itself is of no routine, and there may be none. -/
  | absent (hindex : p.routines[index]? = none) (hdepth : p.limits.callDepth = 0) :
      p.Crosses index args world 0 (.callDepth p.limits.callDepth)

/-- The limits of a program only cut off its call of the schema at this position. -/
structure CutsOff (p : Program) (index : Nat) (args : List Value) (world : World) : Prop where
  /-- The call moment by moment is the call. -/
  executes : ∀ fuel, p.execute fuel index args world = (p.limited index args world fuel).answer?
  /-- Without limits means under all limits that are large enough. -/
  reaches : ∀ n, ∃ depth stack, ∀ limits : Limits, depth ≤ limits.callDepth →
    stack ≤ limits.stack →
      { p with limits }.limited index args world n = p.unlimited index args world n
  agrees : ∀ n, (∀ m ≤ n, ∀ e, ¬p.Crosses index args world m e) →
    p.limited index args world n = p.unlimited index args world n
  /-- It stops at the first moment at which a limit is gone beyond, with what has been done to the
  world by then. -/
  stops : ∀ n e, p.Crosses index args world n e → (∀ m < n, ∀ e, ¬p.Crosses index args world m e) →
    p.limited index args world n = .finished (.error e) (p.unlimited index args world n).world
  same : (∀ n e, ¬p.Crosses index args world n e) → ∀ fuel,
    p.execute fuel index args world = (p.unlimited index args world fuel).answer?
  bounded : ∀ n s, p.limited index args world n = .running s → p.limits.Allow s
  raises : ∀ limits : Limits, p.limits.callDepth ≤ limits.callDepth →
    p.limits.stack ≤ limits.stack → ∀ fuel answer w,
      p.execute fuel index args world = some (answer, w) →
      answer ≠ .error (.callDepth p.limits.callDepth) →
      answer ≠ .error (.stackOverflow p.limits.stack) →
      { p with limits }.execute fuel index args world = some (answer, w)

end Program

/-! ### One step -/

theorem Limits.allow_iff {l : Limits} {s : State} : l.Allow s ↔ ∀ e, ¬l.Exceeded s e := by
  constructor
  · rintro ⟨hcalls, hoperands⟩ e (h | ⟨hf, h⟩)
    · exact Nat.not_lt.2 hcalls h
    · exact Nat.not_lt.2 (hoperands _ hf) h
  · intro h
    exact ⟨Nat.not_lt.1 fun hcalls => h _ (.calls hcalls),
      fun _ hf => Nat.not_lt.1 fun hoperands => h _ (.operands hf hoperands)⟩

namespace Limits.Allow

variable {l : Limits} {s t : State}

/-- The running call may change as it likes, if it keeps to its own limit. -/
theorem of_callers (hs : l.Allow s) (hcallers : t.callers = s.callers)
    (hstack : t.frame.stack.length ≤ l.stack) : l.Allow t := by
  constructor
  · simpa only [State.length_frames, hcallers] using hs.calls
  · intro f hf
    rw [State.frames, hcallers, List.mem_cons] at hf
    rcases hf with rfl | hf
    · exact hstack
    · exact hs.operands f (List.mem_cons_of_mem _ hf)

/-- The innermost waiting call may go on. -/
theorem leave {returns : Bool} (hs : l.Allow s)
    (hcallers : s.callers = (t.frame, returns) :: t.callers) : l.Allow t := by
  have hframes : s.frames = s.frame :: t.frames := by
    simp only [State.frames, hcallers, List.map_cons]
  constructor
  · have hcalls := hs.calls
    rw [hframes, List.length_cons] at hcalls
    exact Nat.le_of_succ_le hcalls
  · exact fun f hf => hs.operands f (hframes ▸ List.mem_cons_of_mem _ hf)

theorem push {v : Value} (hs : l.Allow s) (hroom : s.frame.stack.length < l.stack) :
    l.Allow (s.push v) :=
  hs.of_callers rfl hroom

/-- Arguments are taken off for a call, which begins with no operand. -/
theorem operands_enter (hs : l.Allow s) (r : Routine) (argc : Nat) (returns : Bool) :
    ∀ f ∈ (s.enter r argc returns).frames, f.stack.length ≤ l.stack := by
  intro f hf
  rcases List.mem_cons.1 hf with rfl | hf
  · exact Nat.zero_le _
  · rcases List.mem_cons.1 hf with rfl | hf
    · exact Nat.le_trans (by simp [List.length_drop]) (hs.operands s.frame List.mem_cons_self)
    · exact hs.operands f (List.mem_cons_of_mem _ hf)

theorem call {p : Program} {function argc : Nat} {returns : Bool} (hs : p.limits.Allow s)
    (hroom : argc ≤ s.frame.stack.length → s.frames.length < p.limits.callDepth)
    (h : s.call p function argc returns = .running t) : p.limits.Allow t := by
  obtain ⟨r, _, hargs, rfl⟩ := State.call_eq_running h
  exact ⟨hroom hargs, hs.operands_enter _ _ _⟩

end Limits.Allow

namespace Program

variable {p : Program} {s t : State} {function argc : Nat} {returns : Bool} {e : RuntimeError}

private theorem cutsStep_same (hcall : ¬(p.CallsNothing s ∧ p.limits.callDepth ≤ s.frames.length))
    (hstep : p.step s = p.free s) (hfree : ∀ s', p.free s = .running s' → p.limits.Allow s') :
    p.CutsStep s := by
  refine .inl ⟨hstep, ?_⟩
  rintro e (⟨s', hs', he⟩ | ⟨hnothing, hdepth, -⟩)
  · exact Limits.allow_iff.1 (hfree s' hs') e he
  · exact hcall ⟨hnothing, hdepth⟩

private theorem cutsStep_finished {answer : Answer} {w : World} (hnothing : ¬p.CallsNothing s)
    (hstep : p.step s = .finished answer w) (hfree : p.free s = .finished answer w) :
    p.CutsStep s := by
  refine cutsStep_same (fun h => hnothing h.1) (hstep.trans hfree.symm) fun s' hs' => ?_
  cases hfree.symm.trans hs'

private theorem cutsStep_running (hnothing : ¬p.CallsNothing s) (ht : p.limits.Allow t)
    (hstep : p.step s = .running t) (hfree : p.free s = .running t) : p.CutsStep s := by
  refine cutsStep_same (fun h => hnothing h.1) (hstep.trans hfree.symm) fun s' hs' => ?_
  cases hfree.symm.trans hs'
  exact ht

private theorem cutsStep_push {v : Value} (hnothing : ¬p.CallsNothing s) (ht : p.limits.Allow t)
    (hstep : p.step s = t.pushWithin p.limits.stack v) (hfree : p.free s = .running (t.push v)) :
    p.CutsStep s := by
  rw [State.pushWithin] at hstep
  by_cases hfull : p.limits.stack ≤ t.frame.stack.length
  · rw [if_pos hfull] at hstep
    refine .inr ⟨_, by rw [hstep, hfree]; rfl, fun e => ⟨?_, ?_⟩⟩
    · rintro (⟨s', hs', he⟩ | ⟨h, -⟩)
      · cases hfree.symm.trans hs'
        cases he with
        | calls h => exact absurd h (Nat.not_lt.2 ht.calls)
        | operands => rfl
      · exact absurd h hnothing
    · rintro rfl
      exact .inl ⟨_, hfree, .operands List.mem_cons_self (Nat.lt_succ_of_le hfull)⟩
  · rw [if_neg hfull] at hstep
    exact cutsStep_running hnothing (ht.push (Nat.not_le.1 hfull)) hstep hfree

private theorem cutsStep_answer (hnothing : ¬p.CallsNothing s) (hs : p.limits.Allow s)
    (ht : t.callers = s.callers) {result : Option Value}
    (hstep : p.step s = t.answerWithin p.limits.stack result)
    (hfree : p.free s = t.answer result) : p.CutsStep s := by
  rcases hc : t.callers with _ | ⟨⟨frame, returns⟩, callers⟩
  · simp only [State.answerWithin, State.answer, hc] at hstep hfree
    exact cutsStep_finished hnothing hstep hfree
  · have hnext : p.limits.Allow { t with frame, callers } := hs.leave (ht.symm.trans hc)
    cases returns with
    | false =>
      simp only [State.answerWithin, State.answer, hc] at hstep hfree
      exact cutsStep_running hnothing hnext hstep hfree
    | true =>
      cases result <;> simp only [State.answerWithin, State.answer, hc] at hstep hfree
      case none => exact cutsStep_finished hnothing hstep hfree
      case some v => exact cutsStep_push hnothing hnext hstep hfree

theorem callsNothing_iff (hi : s.instruction? = some (.call function argc returns)) :
    p.CallsNothing s ↔ argc ≤ s.frame.stack.length ∧ p.routines[function]? = none := by
  constructor
  · rintro ⟨_, _, _, hi', h⟩
    cases hi.symm.trans hi'
    exact h
  · exact fun h => ⟨_, _, _, hi, h⟩

/-- A call beyond the depth of calls oversteps that and nothing else, be there a routine or not. -/
private theorem oversteps_call_iff (ht : p.limits.Allow t)
    (hi : s.instruction? = some (.call function argc returns))
    (hfree : p.free s = t.call p function argc returns)
    (hstack : t.frame.stack = s.frame.stack) (hframes : t.frames.length = s.frames.length)
    (hargs : argc ≤ s.frame.stack.length) (hdepth : p.limits.callDepth ≤ s.frames.length) :
    p.Oversteps s e ↔ e = .callDepth p.limits.callDepth := by
  rw [State.call, hstack, if_neg (Nat.not_lt.2 hargs)] at hfree
  constructor
  · rintro (⟨s', hs', he⟩ | ⟨-, -, he⟩)
    · cases hr : p.routines[function]? <;> simp only [hr] at hfree <;> cases hfree.symm.trans hs'
      cases he with
      | calls => rfl
      | operands hf h => exact absurd h (Nat.not_lt.2 (ht.operands_enter _ _ _ _ hf))
    · exact he
  · rintro rfl
    cases hr : p.routines[function]? <;> simp only [hr] at hfree
    · exact .inr ⟨(callsNothing_iff hi).2 ⟨hargs, hr⟩, hdepth, rfl⟩
    · exact .inl ⟨_, hfree, .calls (Nat.lt_succ_of_le (hframes ▸ hdepth))⟩

private theorem cutsStep_call (hs : p.limits.Allow s)
    (hi : s.instruction? = some (.call function argc returns))
    (ht : t = s.goto (s.frame.next + 1) s.frame.stack)
    (hstep : p.step s = t.callWithin p function argc returns)
    (hfree : p.free s = t.call p function argc returns) : p.CutsStep s := by
  have hallow : p.limits.Allow t := by
    subst ht
    exact hs.of_callers rfl (hs.operands s.frame List.mem_cons_self)
  have hstack : t.frame.stack = s.frame.stack := by rw [ht, State.goto_stack]
  have hframes : t.frames.length = s.frames.length := by
    rw [ht]
    rfl
  rw [State.callWithin, hstack, ← State.length_frames, hframes] at hstep
  by_cases hlimit : argc ≤ s.frame.stack.length ∧ p.limits.callDepth ≤ s.frames.length
  · rw [if_pos hlimit] at hstep
    refine .inr ⟨_, ?_, fun e =>
      oversteps_call_iff hallow hi hfree hstack hframes hlimit.1 hlimit.2⟩
    rw [hstep, hfree, State.world_call]
    rfl
  · rw [if_neg hlimit] at hstep
    refine cutsStep_same (fun h => hlimit ⟨((callsNothing_iff hi).1 h.1).1, h.2⟩)
      (hstep.trans hfree.symm) fun s' hs' => hallow.call ?_ (hfree.symm.trans hs')
    intro hargs
    exact Nat.not_le.1 fun h => hlimit ⟨hstack ▸ hargs, hframes ▸ h⟩

/-- From a state within the limits, a step is cut off just where it would leave them. -/
theorem cutsStep (hs : p.limits.Allow s) : p.CutsStep s := by
  have hmoves := p.moves s
  generalize hstep : p.step s = step, hfree : p.free s = free at hmoves
  have hnothing : (∀ function argc returns, s.instruction? ≠ some (.call function argc returns)) →
      ¬p.CallsNothing s := fun h ⟨_, _, _, hi, _⟩ => h _ _ _ hi
  cases hmoves with
  | fault f hi => exact cutsStep_finished (hnothing hi) hstep hfree
  | @deliver i hi hcall t ht =>
    replace hnothing := hnothing fun _ _ _ hi' => hcall _ _ _ (Option.some.inj (hi.symm.trans hi'))
    have hsheds := p.sheds_outcome i t
    rcases ho : p.outcome i t with ⟨e | v?, u⟩ <;> rw [ho] at hstep hfree hsheds
    · exact cutsStep_finished hnothing hstep hfree
    · have hu : p.limits.Allow u := by
        subst ht
        exact hs.of_callers hsheds.1
          (Nat.le_trans hsheds.2 (hs.operands s.frame List.mem_cons_self))
      cases v? with
      | some v => exact cutsStep_push hnothing hu hstep hfree
      | none => exact cutsStep_running hnothing hu hstep hfree
  | answer hi t ht result => exact cutsStep_answer (hnothing hi) hs ht hstep hfree
  | call hi t ht => exact cutsStep_call hs hi ht hstep hfree

/-! ### Whole runs -/

variable {index : Nat} {args : List Value} {world w : World} {n m : Nat} {answer : Answer}

theorem limited_succ : p.limited index args world (n + 1) =
    (p.limited index args world n).next p.step :=
  Function.iterate_succ_apply' ..

theorem unlimited_succ : p.unlimited index args world (n + 1) =
    (p.unlimited index args world n).next p.free :=
  Function.iterate_succ_apply' ..

theorem crosses_succ_iff (hs : p.unlimited index args world n = .running s) :
    p.Crosses index args world (n + 1) e ↔ p.Oversteps s e := by
  have hsucc : p.unlimited index args world (n + 1) = p.free s := by
    rw [unlimited_succ, hs, Progress.next]
  constructor
  · rintro (⟨hs', he⟩ | ⟨hs', hcall, hdepth⟩)
    · exact .inl ⟨_, hsucc.symm.trans hs', he⟩
    · cases hs.symm.trans hs'
      exact .inr ⟨hcall, hdepth, rfl⟩
  · rintro (⟨s', hs', he⟩ | ⟨hcall, hdepth, rfl⟩)
    · exact .state (hsucc.trans hs') he
    · exact .missing hs hcall hdepth

theorem not_crosses_succ (h : p.unlimited index args world n = .finished answer w) :
    ¬p.Crosses index args world (n + 1) e := by
  rintro (⟨hs, -⟩ | ⟨hs, -⟩)
  · rw [unlimited_succ, h] at hs
    cases hs
  · cases h.symm.trans hs

/-- A call begins with one frame and no operands. -/
theorem fresh_of_unlimited_zero (hs : p.unlimited index args world 0 = .running s) :
    s.callers = [] ∧ s.frame.stack = [] := by
  simp only [unlimited, Function.iterate_zero, id_eq] at hs
  split at hs
  · cases hs
    exact ⟨rfl, rfl⟩
  · cases hs

theorem eq_callDepth_of_crosses_zero (h : p.Crosses index args world 0 e) :
    e = .callDepth p.limits.callDepth ∧ p.limits.callDepth = 0 := by
  rcases h with ⟨hs, he⟩ | - | ⟨-, hdepth⟩
  · obtain ⟨hcallers, hstack⟩ := fresh_of_unlimited_zero hs
    cases he with
    | calls h =>
      rw [State.length_frames, hcallers] at h
      exact ⟨rfl, Nat.lt_one_iff.1 h⟩
    | operands hf h =>
      rw [State.frames, hcallers, List.map_nil, List.mem_singleton] at hf
      rw [hf, hstack] at h
      exact absurd h (Nat.not_lt_zero _)
  · exact ⟨rfl, hdepth⟩

/-- How a call begins. -/
private theorem limited_zero :
    (p.limited index args world 0 = p.unlimited index args world 0 ∧
      ∀ e, ¬p.Crosses index args world 0 e) ∨
    ∃ e, p.limited index args world 0 =
        .finished (.error e) (p.unlimited index args world 0).world ∧
      ∀ e', p.Crosses index args world 0 e' ↔ e' = e := by
  have hzero : p.unlimited index args world 0 = match p.routines[index]? with
      | some r => .running (.start r args world)
      | none => .finished (.error (.malformed .functionIndex)) world := rfl
  by_cases hdepth : p.limits.callDepth = 0
  · have hlimited : p.limited index args world 0 =
        .finished (.error (.callDepth p.limits.callDepth)) world := by
      simp only [limited, Function.iterate_zero, id_eq, enter, hdepth, ge_iff_le, Nat.le_refl,
        if_true]
    refine .inr ⟨_, ?_, fun e => ⟨fun h => (eq_callDepth_of_crosses_zero h).1, ?_⟩⟩
    · rw [hlimited, hzero]
      cases p.routines[index]? <;> rfl
    · rintro rfl
      cases hr : p.routines[index]? with
      | none => exact .absent hr hdepth
      | some r =>
        rw [hr] at hzero
        exact .state hzero (.calls (by simp [hdepth]))
  · refine .inl ⟨?_, fun e h => hdepth (eq_callDepth_of_crosses_zero h).2⟩
    rw [hzero]
    simp only [limited, Function.iterate_zero, id_eq, enter, ge_iff_le, Nat.le_zero, hdepth,
      if_false]
    cases p.routines[index]? <;> rfl

/-- Up to the first moment beyond a limit, the limits make no difference; there the run stops. -/
theorem limited_eq_or_stops (h : ∀ m < n, ∀ e, ¬p.Crosses index args world m e) :
    (p.limited index args world n = p.unlimited index args world n ∧
      ∀ e, ¬p.Crosses index args world n e) ∨
    ∃ e, p.limited index args world n =
        .finished (.error e) (p.unlimited index args world n).world ∧
      ∀ e', p.Crosses index args world n e' ↔ e' = e := by
  induction n with
  | zero => exact limited_zero
  | succ n ih =>
    rcases ih fun m hm => h m (Nat.lt_succ_of_lt hm) with ⟨heq, hnone⟩ | ⟨e, -, he⟩
    · rw [limited_succ, heq]
      cases hs : p.unlimited index args world n with
      | finished answer w =>
        refine .inl ⟨?_, fun e => not_crosses_succ hs⟩
        rw [unlimited_succ, hs]
        rfl
      | running s =>
        -- Both runs are in this state, and it is within the limits since none is gone beyond.
        have hallow : p.limits.Allow s := Limits.allow_iff.2 fun e he => hnone e (.state hs he)
        simp only [crosses_succ_iff hs]
        rw [unlimited_succ, hs]
        exact cutsStep hallow
    · exact absurd ((he e).2 rfl) (h n (Nat.lt_succ_self n) e)

theorem limited_of_finished (h : p.limited index args world m = .finished answer w) (hn : m ≤ n) :
    p.limited index args world n = .finished answer w := by
  induction n, hn using Nat.le_induction with
  | base => exact h
  | succ n _ ih =>
    rw [limited_succ, ih]
    rfl

theorem Crosses.error (h : p.Crosses index args world n e) :
    e = .callDepth p.limits.callDepth ∨ e = .stackOverflow p.limits.stack := by
  rcases h with ⟨-, ⟨-⟩ | ⟨-, -⟩⟩ | - | -
  · exact .inl rfl
  · exact .inr rfl
  · exact .inl rfl
  · exact .inl rfl

theorem limited_of_crosses (h : p.Crosses index args world n e)
    (hfirst : ∀ m < n, ∀ e, ¬p.Crosses index args world m e) :
    p.limited index args world n =
      .finished (.error e) (p.unlimited index args world n).world := by
  rcases limited_eq_or_stops hfirst with ⟨-, hnone⟩ | ⟨e', heq, he⟩
  · exact absurd h (hnone e)
  · rw [heq, (he e).1 h]

theorem limited_eq_unlimited (h : ∀ m ≤ n, ∀ e, ¬p.Crosses index args world m e) :
    p.limited index args world n = p.unlimited index args world n := by
  rcases limited_eq_or_stops fun m hm => h m hm.le with ⟨heq, -⟩ | ⟨e, -, he⟩
  · exact heq
  · exact absurd ((he e).2 rfl) (h n le_rfl e)

/-- A run beyond a limit is over, with an error about a limit. -/
theorem finished_of_crosses (h : p.Crosses index args world m e) (hn : m ≤ n) : ∃ e w,
    p.limited index args world n = .finished (.error e) w ∧
      (e = .callDepth p.limits.callDepth ∨ e = .stackOverflow p.limits.stack) := by
  classical
  have hex : ∃ m e, p.Crosses index args world m e := ⟨m, e, h⟩
  obtain ⟨e', he'⟩ := Nat.find_spec hex
  have hfirst : ∀ k < Nat.find hex, ∀ e, ¬p.Crosses index args world k e :=
    fun k hk e he => Nat.find_min hex hk ⟨e, he⟩
  have hle : Nat.find hex ≤ n := (Nat.find_min' hex ⟨e, h⟩).trans hn
  exact ⟨e', _, limited_of_finished (limited_of_crosses he' hfirst) hle, he'.error⟩

/-- No more calls are under way than there may be, and none holds more operands than it may. -/
theorem allow_of_limited (hs : p.limited index args world n = .running s) : p.limits.Allow s := by
  have hnone : ∀ m ≤ n, ∀ e, ¬p.Crosses index args world m e := by
    intro m hm e h
    obtain ⟨_, _, hfinished, -⟩ := finished_of_crosses h hm
    cases hs.symm.trans hfinished
  rw [limited_eq_unlimited hnone] at hs
  exact Limits.allow_iff.2 fun e he => hnone n le_rfl e (.state hs he)

/-! ### Other limits -/

variable {limits : Limits}

/-- What goes beyond a limit goes beyond every lower one. -/
theorem crosses_of_raised (hdepth : p.limits.callDepth ≤ limits.callDepth)
    (hstack : p.limits.stack ≤ limits.stack)
    (h : Crosses { p with limits } index args world n e) : ∃ e, p.Crosses index args world n e := by
  rcases h with ⟨hs, h | ⟨hf, h⟩⟩ | ⟨hs, hcall, h⟩ | ⟨hindex, h⟩
  · exact ⟨_, .state hs (.calls (hdepth.trans_lt h))⟩
  · exact ⟨_, .state hs (.operands hf (hstack.trans_lt h))⟩
  · exact ⟨_, .missing hs hcall (hdepth.trans h)⟩
  · exact ⟨_, .absent hindex (Nat.le_zero.1 (hdepth.trans h.le))⟩

theorem exists_allow (s : State) : ∃ depth stack, ∀ limits : Limits, depth ≤ limits.callDepth →
    stack ≤ limits.stack → limits.Allow s :=
  ⟨s.frames.length, (s.frames.map (·.stack.length)).sum, fun _ hdepth hstack =>
    ⟨hdepth, fun _ hf => (List.le_sum_of_mem (List.mem_map_of_mem hf)).trans hstack⟩⟩

/-- Some limits leave room for all that happens up to a moment. -/
theorem exists_allow_until (p : Program) (index : Nat) (args : List Value) (world : World)
    (n : Nat) : ∃ depth stack, ∀ limits : Limits, depth ≤ limits.callDepth →
      stack ≤ limits.stack → ∀ m ≤ n, ∀ s, p.unlimited index args world m = .running s →
        limits.Allow s := by
  have hmoment (m : Nat) : ∃ depth stack, ∀ limits : Limits, depth ≤ limits.callDepth →
      stack ≤ limits.stack → ∀ s, p.unlimited index args world m = .running s →
        limits.Allow s := by
    cases hm : p.unlimited index args world m with
    | finished answer w => exact ⟨0, 0, fun _ _ _ _ => nofun⟩
    | running s =>
      obtain ⟨depth, stack, h⟩ := exists_allow s
      exact ⟨depth, stack, fun limits hdepth hstack _ hs =>
        Progress.running.inj hs ▸ h limits hdepth hstack⟩
  induction n with
  | zero =>
    obtain ⟨depth, stack, h⟩ := hmoment 0
    exact ⟨depth, stack, fun limits hdepth hstack m hm => Nat.le_zero.1 hm ▸ h limits hdepth hstack⟩
  | succ n ih =>
    obtain ⟨depth, stack, h⟩ := ih
    obtain ⟨depth', stack', h'⟩ := hmoment (n + 1)
    refine ⟨max depth depth', max stack stack', fun limits hdepth hstack m hm => ?_⟩
    rcases Nat.le_succ_iff.1 hm with hm | rfl
    · exact h limits (le_of_max_le_left hdepth) (le_of_max_le_left hstack) m hm
    · exact h' limits (le_of_max_le_right hdepth) (le_of_max_le_right hstack)

theorem limited_of_large (p : Program) (index : Nat) (args : List Value) (world : World) (n : Nat) :
    ∃ depth stack, ∀ limits : Limits, depth ≤ limits.callDepth → stack ≤ limits.stack →
      limited { p with limits } index args world n = p.unlimited index args world n := by
  obtain ⟨depth, stack, h⟩ := exists_allow_until p index args world n
  refine ⟨depth + 1, stack, fun limits hdepth hstack => ?_⟩
  have hallow := h limits (Nat.le_of_succ_le hdepth) hstack
  refine limited_eq_unlimited (p := { p with limits }) fun m hm e hcross => ?_
  rcases hcross with ⟨hs, he⟩ | ⟨hs, -, hfull⟩ | ⟨-, hnone⟩
  · exact Limits.allow_iff.1 (hallow m hm _ hs) e he
  · -- A call of no routine needs room for one frame more than there is.
    have hcalls := (h ⟨depth, stack⟩ le_rfl le_rfl _ (Nat.le_of_succ_le hm) _ hs).calls
    exact absurd (hdepth.trans (hfull.trans hcalls)) (Nat.not_succ_le_self depth)
  · exact absurd (hnone ▸ hdepth) (Nat.not_succ_le_zero depth)

/-! ### Calls -/

theorem run_eq_iterate (p : Program) (n : Nat) (s : State) :
    p.run n s = ((Progress.next p.step)^[n] (.running s)).answer? := by
  induction n generalizing s with
  | zero => rfl
  | succ n ih =>
    rw [Function.iterate_succ_apply, Progress.next, run]
    cases p.step s with
    | running t => exact ih t
    | finished answer w =>
      rw [Progress.iterate_finished]
      rfl

theorem execute_eq (p : Program) (index : Nat) (args : List Value) (world : World) (fuel : Nat) :
    p.execute fuel index args world = (p.limited index args world fuel).answer? := by
  rw [execute, limited]
  cases p.enter 0 index args with
  | ok frame => exact run_eq_iterate p fuel _
  | error e =>
    simp only [Progress.iterate_finished]
    rfl

theorem execute_of_raised (hdepth : p.limits.callDepth ≤ limits.callDepth)
    (hstack : p.limits.stack ≤ limits.stack) {fuel : Nat}
    (h : p.execute fuel index args world = some (answer, w))
    (hcalls : answer ≠ .error (.callDepth p.limits.callDepth))
    (hoperands : answer ≠ .error (.stackOverflow p.limits.stack)) :
    execute { p with limits } fuel index args world = some (answer, w) := by
  rw [execute_eq] at h ⊢
  have hnone : ∀ m ≤ fuel, ∀ e, ¬p.Crosses index args world m e := by
    intro m hm e hcross
    obtain ⟨e, w', hfinished, he⟩ := finished_of_crosses hcross hm
    rw [hfinished] at h
    cases h
    rcases he with rfl | rfl
    · exact hcalls rfl
    · exact hoperands rfl
  have hraised : ∀ m ≤ fuel, ∀ e, ¬Crosses { p with limits } index args world m e := by
    intro m hm e hcross
    obtain ⟨e, hcross⟩ := crosses_of_raised hdepth hstack hcross
    exact hnone m hm e hcross
  have hsame : limited { p with limits } index args world fuel = p.limited index args world fuel :=
    (limited_eq_unlimited hraised).trans (limited_eq_unlimited hnone).symm
  rw [hsame, h]

/-- Limits only cut runs off. -/
theorem limits_cutOff (p : Program) (index : Nat) (args : List Value) (world : World) :
    p.CutsOff index args world where
  executes := execute_eq p index args world
  reaches := limited_of_large p index args world
  agrees _ h := limited_eq_unlimited h
  stops _ _ h hfirst := limited_of_crosses h hfirst
  same h fuel := by rw [execute_eq, limited_eq_unlimited fun m _ => h m]
  bounded _ _ hs := allow_of_limited hs
  raises _ hdepth hstack _ _ _ h hcalls hoperands :=
    execute_of_raised hdepth hstack h hcalls hoperands

/-- Its only schema calls one that there is not. -/
def stray : Program where
  routines := #[{
    name := "f"
    resource? := none
    params := []
    returns := .void
    code := #[.call 7 0 false]
    localCount := 0
    localNames := #[] }]
  limits := { callDepth := 1 }

theorem unlimited_stray (w : World) (n : Nat) :
    stray.unlimited 0 [] w (n + 1) = .finished (.error (.malformed .functionIndex)) w :=
  Progress.iterate_finished ..

/-- A call of no schema may be one too many although there are never too many calls. -/
theorem stray_stops_early :
    (∀ n s, stray.unlimited 0 [] World.blank n = .running s → stray.limits.Allow s) ∧
      stray.limited 0 [] World.blank 1 = .finished (.error (.callDepth 1)) World.blank ∧
      stray.unlimited 0 [] World.blank 1 =
        .finished (.error (.malformed .functionIndex)) World.blank := by
  refine ⟨fun n s hs => ?_, rfl, rfl⟩
  cases n with
  | zero =>
    obtain ⟨hcallers, hstack⟩ := fresh_of_unlimited_zero hs
    constructor
    · rw [State.length_frames, hcallers]
      rfl
    · intro f hf
      rw [State.frames, hcallers, List.map_nil, List.mem_singleton] at hf
      rw [hf, hstack]
      exact Nat.zero_le _
  | succ n =>
    rw [unlimited_stray] at hs
    cases hs

end Program

end EventScript
