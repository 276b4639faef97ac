import EventScript.Proofs.Machine.Calls
import EventScript.Proofs.Machine.Passing
import EventScript.Proofs.NeverMalformed
import EventScript.Proofs.StackDiscipline

/-!
Runs that no limit stops: those of schemas that call no schemas and whose code is short, as often as
their loops may come round.
-/
namespace EventScript

def Instruction.isCall : Instruction → Bool
  | call .. => true
  | _ => false

namespace Program

variable {p : Program} {ctx : Context} {ds : List Definition} {pools : Pools} {c : Callable}
  {args : List Value} {world : World} {s s' : State}

/-- A call has the slots of its routine. -/
theorem Lowers.size_locals (hp : c.program.Lowers ctx ds pools)
    (declared : ctx.registry.All Operation.WellDeclared) (hs : c.Visits args world s) :
    s.frame.locals.size = s.frame.routine.localCount := by
  have hkeeps := hp.keeps_counting declared
  obtain ⟨_, hstands⟩ := hkeeps.stands_of_visits hs
  obtain ⟨_, _, _, hE, _, _, hholds⟩ := hstands.frame
  rw [hholds.size, (hkeeps.checks hE).slots]

/-- No routine calls a routine. -/
def CallsNone (p : Program) : Prop := ∀ r ∈ p.routines, ∀ i ∈ r.code, i.isCall = false

instance (p : Program) : Decidable p.CallsNone :=
  inferInstanceAs (Decidable (∀ r ∈ p.routines, ∀ i ∈ r.code, i.isCall = false))

theorem CallsNone.callers_of_advances (hcalls : p.CallsNone) (hr : s.frame.routine ∈ p.routines)
    (hs : s.callers = []) (h : s.Advances p s') : s'.callers = [] := by
  cases h with
  | within _ hcallers _ => rw [hcallers, hs]
  | call hi _ _ _ => cases hcalls _ hr _ (Array.mem_of_getElem? hi)
  | back _ _ hcallers _ _ =>
    rw [hs] at hcallers
    cases hcallers

end Program

namespace Callable.Visits

variable {c : Callable} {args : List Value} {world : World} {s t : State}

theorem of_reaches (hs : c.Visits args world s) (h : c.program.Reaches s t) :
    c.Visits args world t := by
  obtain ⟨entry, routine, arguments, reaches⟩ := hs
  exact .intro entry routine arguments (reaches.trans h)

end Callable.Visits

namespace Submission

variable {registry : Registry} {limits : Limits} {source : Submission} {ds : List Definition}
  {schemas : Table String Signature} {p : Program} {c : Callable} {args : List Value}
  {world : World} {s : State}

/-- Without calls, and with limits that no code of a schema can come to, a run is free. -/
theorem runsFreely (declared : registry.All Operation.WellDeclared)
    (hds : source.definitions = .ok ds)
    (hschemas : Definition.signatures Table.empty ds = .ok schemas)
    (reads : ∀ d ∈ ds, d.ReadsValues) (h : source.compile registry limits = .ok p)
    (hc : c.IsEntryOf p) (hcalls : p.CallsNone) (hdepth : 1 < limits.callDepth)
    (hsize : ∀ r ∈ p.routines, r.code.size ≤ limits.stack) (hs : c.Visits args world s) :
    p.RunsFreely s := by
  obtain ⟨pools, hp, hlimits⟩ := lowers_of_compile declared.named hds hschemas h
  obtain ⟨rfl, _⟩ := hc
  have hkeeps := keeps_counted declared (isSource_of_definitions hds) reads hp
  have hmember {type : StaticType} {t : State}
      (ht : t.Stands View.counted (c.program.reliance ⟨registry, schemas⟩ ds pools) type) :
      t.frame.routine ∈ c.program.routines := (height_of_stands ht.frame).1
  have halone {t : State} (ht : c.Visits args world t) : t.callers = [] := by
    obtain ⟨entry, routine, arguments, reaches⟩ := ht
    induction reaches with
    | refl => rfl
    | tail reaches hstep ih =>
      obtain ⟨_, hstands⟩ := hkeeps.stands_of_visits (.intro entry routine arguments reaches)
      exact hcalls.callers_of_advances (hmember hstands) ih (Program.advances_of_step hstep)
  intro t hreaches
  have ht := hs.of_reaches hreaches
  obtain ⟨_, hstands⟩ := hkeeps.stands_of_visits ht
  refine (Program.step_eq_free_or_refuses c.program t).resolve_right ?_
  rw [← hlimits] at hdepth hsize
  rintro ⟨e, w, _, ⟨t', hfree, ⟨_, hstack⟩ | ⟨_, hcallers⟩⟩ | ⟨_, hlimit⟩⟩
  · have hsafe := hkeeps.safe_free hstands
    rw [hfree] at hsafe
    obtain ⟨hr, hheight⟩ := height_of_stands hsafe.frame
    have hle := heightAt_le t'.frame.routine.code t'.frame.next
    have hroom := hsize _ hr
    rw [List.length_nil] at hheight
    omega
  · rw [hcalls.callers_of_advances (hmember hstands) (halone ht) (Program.advances_of_free hfree),
      List.length_nil] at hcallers
    omega
  · rw [halone ht, List.length_nil] at hlimit
    omega

end Submission

end EventScript
