import EventScript.Proofs.Simulation.Schemas
import EventScript.Proofs.Submission

/-!
Compiler correctness. As long as no limit gets in the way, a call of a compiled schema answers what
direct evaluation of the schema's tree answers, value or error, leaves the same world behind and
calls the same callbacks with the same arguments; it goes on forever exactly if evaluation has no
answer.
-/
namespace EventScript

/-- The callbacks that a call of an entry point calls, with their arguments. -/
def Callable.callbacks (c : Callable) (fuel : Nat) (args : List Value) (world : World) :
    List (HostFunction × List Value) :=
  match c.routine? with
  | some r => c.program.callbacks fuel (.start r args world)
  | none => []

namespace Program

variable {p : Program} {s : State} {before after : Store} {answer : Answer} {type : StaticType}
  {fuel i : Nat} {r : Routine} {args : List Value} {w w' : World} {ctx : Context}
  {ds : List Definition} {pools : Pools}

/-- Where nothing waits for the answer, the run is over. -/
theorem Follows.finished (h : p.Follows fuel s before (p.Returns type []) (some (answer, after))) :
    ∃ n calls, p.walk n s = (.finished answer after.world, calls) ∧
      after.calls = before.calls ++ calls := by
  cases answer with
  | error e => exact h
  | ok result =>
    obtain ⟨n, calls, t, hwalk, hcalls, hreturns⟩ := h
    have hend := hreturns.answer
    simp only [State.answer, hreturns.callers, hreturns.world] at hend
    refine ⟨n + 1, calls, ?_, hcalls⟩
    rw [walk_add hwalk, walk_succ_finished hend, hreturns.quiet, Option.toList_none,
      List.append_nil]

/-- Limits are no part of what a program was lowered from. -/
theorem Lowers.withLimits (h : p.Lowers ctx ds pools) (limits : Limits) :
    Lowers ctx ds pools { p with limits } where
  named := h.named
  sound := h.sound
  constants := h.constants
  hosts := h.hosts
  schemas := h.schemas
  size := h.size
  routines := h.routines

theorem Lowers.definition_of (h : p.Lowers ctx ds pools) (hr : p.routines[i]? = some r) :
    ∃ d, ds[i]? = some d ∧ r.name = d.name ∧ r.params = d.params := by
  have hi : i < ds.length := by
    rw [← h.size]
    exact (Array.getElem?_eq_some_iff.1 hr).1
  obtain ⟨_, r', _, _, hr', _, hlowers, _⟩ := h.routines (List.getElem?_eq_getElem hi)
  rw [hr] at hr'
  cases hr'
  cases hlowers
  exact ⟨ds[i], List.getElem?_eq_getElem hi, rfl, rfl⟩

theorem length_of_checkArguments (h : r.checkArguments args = .ok ()) :
    args.length = r.params.length := by
  unfold Routine.checkArguments at h
  split at h
  · assumption
  · cases h

/-- A call with fitting arguments runs the routine, if calls are allowed at all. -/
theorem invoke_eq_run (hr : p.routines[i]? = some r) (hargs : r.checkArguments args = .ok ())
    (hdepth : 1 ≤ p.limits.callDepth) (fuel : Nat) (w : World) :
    Callable.invoke ⟨p, .routine i⟩ fuel args w = p.run fuel (.start r args w) := by
  have hdepth : ¬0 ≥ p.limits.callDepth := by omega
  simp only [Callable.invoke, hr, hargs, execute, enter, if_neg hdepth]
  rfl

theorem invoke_eq_error (hr : p.routines[i]? = some r) (hargs : r.checkArguments args = .ok ())
    (hdepth : ¬1 ≤ p.limits.callDepth) (fuel : Nat) (w : World) :
    Callable.invoke ⟨p, .routine i⟩ fuel args w =
      some (.error (.callDepth p.limits.callDepth), w) := by
  have hdepth : 0 ≥ p.limits.callDepth := by omega
  simp only [Callable.invoke, hr, hargs, execute, enter, if_pos hdepth]

theorem callbacks_eq (hr : p.routines[i]? = some r) (fuel : Nat) (args : List Value) (w : World) :
    Callable.callbacks ⟨p, .routine i⟩ fuel args w = p.callbacks fuel (.start r args w) := by
  simp only [Callable.callbacks, Callable.routine?, hr]

/-- Evaluation answers what a run that ends answers. -/
theorem Lowers.evaluate_of_walk {n : Nat} {d : Definition} {calls : List (HostFunction × List Value)}
    (h : p.Lowers ctx ds pools) (declared : ctx.registry.All Operation.WellDeclared)
    (sources : ∀ d ∈ ds, d.schema.body.IsStatement) (hd : ds[i]? = some d)
    (hr : p.routines[i]? = some r) (hargs : args.length = d.schema.params.length)
    (hwalk : p.walk n (.start r args w) = (.finished answer w', calls)) :
    Definition.evaluate ctx ds n d.name args ⟨w, []⟩ = some (answer, ⟨w', calls⟩) := by
  have hfollows : p.Follows n (.start r args w) ⟨w, []⟩ (p.Returns d.schema.returns [])
      (Definition.evaluate ctx ds n d.name args ⟨w, []⟩) :=
    h.follows_evaluate declared sources hd hr hargs
  cases heval : Definition.evaluate ctx ds n d.name args ⟨w, []⟩ with
  | none =>
    rw [heval] at hfollows
    exact absurd hfollows (not_lasts_of_finished hwalk (Nat.le_refl n))
  | some result =>
    obtain ⟨answer', world', calls'⟩ := result
    rw [heval] at hfollows
    obtain ⟨m, calls'', hwalk', hcalls⟩ := hfollows.finished
    obtain ⟨rfl, rfl, rfl⟩ := walk_unique hwalk hwalk'
    have hcalls : calls' = calls'' := hcalls
    rw [hcalls]

end Program

namespace Submission

/-- A call of a compiled schema does what direct evaluation of its tree does. -/
theorem compile_correct {allowed : Operation → Prop} {registry : Registry} {limits : Limits}
    {source : Submission} {p : Program} {ds : List Definition} {schemas : Table String Signature}
    {i : Nat} {r : Routine} {args : List Value} (hosts : registry.WithHosts allowed)
    (hds : source.definitions = .ok ds) (hschemas : Definition.signatures .empty ds = .ok schemas)
    (h : source.compile registry limits = .ok p) (hr : p.routines[i]? = some r)
    (hargs : r.checkArguments args = .ok ()) (world : World) :
    (∀ fuel answer after,
      Definition.evaluate ⟨registry, schemas⟩ ds fuel r.name args ⟨world, []⟩ =
          some (answer, after) →
        ∃ depth stack steps, ∀ limits : Limits, depth ≤ limits.callDepth → stack ≤ limits.stack →
          Callable.invoke ⟨{ p with limits }, .routine i⟩ steps args world =
              some (answer, after.world) ∧
            Callable.callbacks ⟨{ p with limits }, .routine i⟩ steps args world = after.calls) ∧
    (∀ limits : Limits, ∀ steps answer world',
      Callable.invoke ⟨{ p with limits }, .routine i⟩ steps args world = some (answer, world') →
        answer ≠ .error (.stackOverflow limits.stack) →
          answer ≠ .error (.callDepth limits.callDepth) →
            ∃ fuel, Definition.evaluate ⟨registry, schemas⟩ ds fuel r.name args ⟨world, []⟩ =
              some (answer, ⟨world',
                Callable.callbacks ⟨{ p with limits }, .routine i⟩ steps args world⟩)) := by
  have declared := Registry.wellDeclared_of_withHosts hosts
  have sources := isSource_of_definitions hds
  have statements : ∀ d ∈ ds, d.schema.body.IsStatement := fun d hd => (sources d hd).body
  rw [compile_eq, hds] at h
  obtain ⟨schemas', pools, hschemas', hp, _⟩ := Program.lowers_of_ofDefinitions declared.named
    (fun d hd => (sources d hd).body.unbound) h
  rw [hschemas] at hschemas'
  cases hschemas'
  obtain ⟨d, hd, hname, hparams⟩ := hp.definition_of hr
  have hlength : args.length = d.schema.params.length := by
    rw [Program.length_of_checkArguments hargs, hparams, Definition.params, List.length_map]
  rw [hname]
  constructor
  · intro fuel answer after heval
    have hfollows : p.Follows fuel (.start r args world) ⟨world, []⟩
        (p.Returns d.schema.returns []) (some (answer, after)) := by
      rw [← heval]
      exact hp.follows_evaluate declared statements hd hr hlength
    obtain ⟨n, calls, hwalk, hcalls⟩ := hfollows.finished
    obtain ⟨depth, stack, hrun⟩ := Program.run_of_walk hwalk
    refine ⟨max depth 1, stack, n, ?_⟩
    intro limits hdepth hstack
    obtain ⟨hanswer, hcallbacks⟩ := hrun limits (by omega) hstack
    have hinvoke := Program.invoke_eq_run (p := { p with limits }) hr hargs
      (show 1 ≤ limits.callDepth by omega) n world
    have hcalled := Program.callbacks_eq (p := { p with limits }) hr n args world
    exact ⟨hinvoke.trans hanswer, hcalled.trans (hcallbacks.trans hcalls.symm)⟩
  · intro limits steps answer world' hinvoke hstack hdepth
    have hp := hp.withLimits limits
    by_cases hcalls : 1 ≤ limits.callDepth
    · have hrun := (Program.invoke_eq_run (p := { p with limits }) hr hargs hcalls steps
        world).symm.trans hinvoke
      rw [Program.callbacks_eq (p := { p with limits }) hr steps args world]
      rcases Program.walk_of_run hrun with hwalk | hlimit | hlimit
      · exact ⟨steps, hp.evaluate_of_walk declared statements hd hr hlength hwalk⟩
      · exact absurd hlimit hstack
      · exact absurd hlimit hdepth
    · have herror := (Program.invoke_eq_error (p := { p with limits }) hr hargs hcalls steps
        world).symm.trans hinvoke
      cases herror
      exact absurd rfl hdepth

theorem compile_correct_echo : Registry.standard.WithHosts (fun _ => True) ∧
    echo.definitions = .ok [.echo] ∧ echo.compile Registry.standard {} = .ok .echo ∧
    Definition.echoRoutine.checkArguments [.number .one] = .ok () ∧
    (∃ depth stack steps, ∀ limits : Limits, depth ≤ limits.callDepth → stack ≤ limits.stack →
      Callable.invoke ⟨{ Program.echo with limits }, .routine 0⟩ steps [.number .one] .blank =
          some (.ok (some (.number .one)), .blank) ∧
        Callable.callbacks ⟨{ Program.echo with limits }, .routine 0⟩ steps [.number .one] .blank =
          []) ∧
    Callable.invoke ⟨.echo, .routine 0⟩ 2 [.number .one] .blank =
      some (.ok (some (.number .one)), .blank) ∧
    ∃ fuel, Definition.evaluate (.echo Registry.standard) [.echo] fuel "echo" [.number .one]
      ⟨.blank, []⟩ = some (.ok (some (.number .one)), ⟨.blank,
        Callable.callbacks ⟨.echo, .routine 0⟩ 2 [.number .one] .blank⟩) := by
  have hosts : Registry.standard.WithHosts (fun _ => True) := .standard
  have hargs : Definition.echoRoutine.checkArguments [.number .one] = .ok () := rfl
  have hinvoke : Callable.invoke ⟨.echo, .routine 0⟩ 2 [.number .one] .blank =
    some (.ok (some (.number .one)), .blank) := rfl
  obtain ⟨runs, evaluates⟩ := compile_correct hosts definitions_echo
    (Definition.signatures_echo Registry.standard) (compile_echo _) (i := 0) rfl hargs .blank
  exact ⟨hosts, definitions_echo, compile_echo _, hargs,
    runs 1 _ _ (Definition.evaluate_echo Registry.standard .blank), hinvoke,
    evaluates {} 2 _ _ hinvoke (by simp) (by simp)⟩

end Submission

end EventScript
