import EventScript.Proofs.Machine.Unlimited

/-!
Steps without limits one after another, with the callbacks that are called on the way. A walk that
ends is the run of the same program under every limit that is large enough, and a run that no limit
stops is a walk.
-/
namespace EventScript

namespace Program

/-- The callbacks that the first steps of a run call, with their arguments. -/
def callbacks (p : Program) : (fuel : Nat) → State → List (HostFunction × List Value)
  | 0, _ => []
  | fuel + 1, s => (p.invocation? s).toList ++
    match p.step s with
    | .running s' => callbacks p fuel s'
    | .finished _ _ => []

/-- Steps without limits, and the callbacks that they call. -/
def walk (p : Program) : Nat → State → Progress × List (HostFunction × List Value)
  | 0, s => (.running s, [])
  | n + 1, s =>
    match p.free s with
    | .running s' => ((walk p n s').1, (p.invocation? s).toList ++ (walk p n s').2)
    | .finished answer w => (.finished answer w, (p.invocation? s).toList)

/-- At least this many steps are possible. -/
def Lasts (p : Program) (n : Nat) (s : State) : Prop := ∃ s' calls, p.walk n s = (.running s', calls)

variable {p : Program} {s s' : State} {n m : Nat} {answer answer' : Answer} {w w' : World}
  {calls calls' : List (HostFunction × List Value)}

theorem walk_succ_running (h : p.free s = .running s') :
    p.walk (n + 1) s = ((p.walk n s').1, (p.invocation? s).toList ++ (p.walk n s').2) := by
  simp only [walk, h]

theorem walk_succ_finished (h : p.free s = .finished answer w) :
    p.walk (n + 1) s = (.finished answer w, (p.invocation? s).toList) := by
  simp only [walk, h]

/-- A walk can be interrupted. -/
theorem walk_add (h : p.walk m s = (.running s', calls)) :
    p.walk (m + n) s = ((p.walk n s').1, calls ++ (p.walk n s').2) := by
  induction m generalizing s calls with
  | zero =>
    cases h
    rw [Nat.zero_add, List.nil_append]
  | succ m ih =>
    rw [Nat.add_right_comm]
    cases hfree : p.free s with
    | finished answer w =>
      rw [walk_succ_finished hfree] at h
      cases h
    | running t =>
      rw [walk_succ_running hfree, Prod.mk.injEq] at h
      rw [walk_succ_running hfree, ih (Prod.ext h.1 rfl), ← h.2, List.append_assoc]

/-- A walk that has ended stays so. -/
theorem walk_add_of_finished (h : p.walk n s = (.finished answer w, calls)) :
    p.walk (n + m) s = (.finished answer w, calls) := by
  induction n generalizing s calls with
  | zero => cases h
  | succ n ih =>
    rw [Nat.add_right_comm]
    cases hfree : p.free s with
    | finished answer' w' =>
      rw [walk_succ_finished hfree] at h ⊢
      exact h
    | running t =>
      rw [walk_succ_running hfree, Prod.mk.injEq] at h
      rw [walk_succ_running hfree, ih (Prod.ext h.1 rfl), ← h.2]

theorem walk_unique (h : p.walk n s = (.finished answer w, calls))
    (h' : p.walk m s = (.finished answer' w', calls')) :
    answer' = answer ∧ w' = w ∧ calls' = calls := by
  have h := walk_add_of_finished (m := m) h
  have h' := walk_add_of_finished (m := n) h'
  rw [Nat.add_comm m n, h] at h'
  cases h'
  exact ⟨rfl, rfl, rfl⟩

theorem not_lasts_of_finished (h : p.walk n s = (.finished answer w, calls)) (hm : n ≤ m) :
    ¬p.Lasts m s := by
  rintro ⟨s', calls', h'⟩
  have h := walk_add_of_finished (m := m - n) h
  rw [Nat.add_sub_cancel' hm, h'] at h
  cases h

theorem lasts_zero (p : Program) (s : State) : p.Lasts 0 s := ⟨s, [], rfl⟩

theorem lasts_of_le (h : p.Lasts m s) (hn : n ≤ m) : p.Lasts n s := by
  cases hwalk : p.walk n s with
  | mk progress calls =>
    cases progress with
    | running s' => exact ⟨s', calls, hwalk⟩
    | finished answer w => exact absurd h (not_lasts_of_finished hwalk hn)

theorem lasts_add (h : p.walk m s = (.running s', calls)) (hn : p.Lasts n s') :
    p.Lasts (m + n) s := by
  obtain ⟨t, calls', ht⟩ := hn
  rw [Lasts, walk_add h, ht]
  exact ⟨_, _, rfl⟩

/-- Under limits that are large enough, a program runs as it walks. -/
theorem run_of_walk (h : p.walk n s = (.finished answer w, calls)) : ∃ depth stack,
    ∀ limits : Limits, depth ≤ limits.callDepth → stack ≤ limits.stack →
      run { p with limits } n s = some (answer, w) ∧ callbacks { p with limits } n s = calls := by
  induction n generalizing s calls with
  | zero => cases h
  | succ n ih =>
    cases hfree : p.free s with
    | finished answer' w' =>
      rw [walk_succ_finished hfree, Prod.mk.injEq, Progress.finished.injEq] at h
      obtain ⟨⟨rfl, rfl⟩, rfl⟩ := h
      refine ⟨s.callers.length + 2, 0, fun limits hdepth _ => ?_⟩
      have hstep : step { p with limits } s = .finished answer' w' := by
        rcases step_eq_free_or_refuses { p with limits } s with heq | ⟨e, v, _, hwhy⟩
        · exact heq.trans hfree
        · rcases hwhy with ⟨s', hs', _⟩ | ⟨_, hlimit⟩
          · have := hfree.symm.trans hs'
            cases this
          · have hlimit : limits.callDepth ≤ s.callers.length + 1 := hlimit
            omega
      simp only [run, callbacks, hstep, List.append_nil]
      exact ⟨trivial, rfl⟩
    | running t =>
      rw [walk_succ_running hfree, Prod.mk.injEq] at h
      obtain ⟨depth, stack, hrun⟩ := ih (Prod.ext h.1 rfl)
      refine ⟨max depth (max (t.callers.length + 1) (s.callers.length + 2)),
        max stack t.frame.stack.length, fun limits hdepth hstack => ?_⟩
      have hstep : step { p with limits } s = .running t := by
        rcases step_eq_free_or_refuses { p with limits } s with heq | ⟨e, v, _, hwhy⟩
        · exact heq.trans hfree
        · rcases hwhy with ⟨s', hs', hexceeds⟩ | ⟨_, hlimit⟩
          · have := hfree.symm.trans hs'
            cases this
            rcases hexceeds with ⟨_, hlimit⟩ | ⟨_, hlimit⟩
            · have hlimit : limits.stack < t.frame.stack.length := hlimit
              omega
            · have hlimit : limits.callDepth ≤ t.callers.length := hlimit
              omega
          · have hlimit : limits.callDepth ≤ s.callers.length + 1 := hlimit
            omega
      have hrest := hrun limits (by omega) (by omega)
      simp only [run, callbacks, hstep, hrest]
      exact ⟨trivial, h.2⟩

/-- A run is a walk unless a limit ends it. -/
theorem walk_of_run (h : p.run n s = some (answer, w)) :
    p.walk n s = (.finished answer w, p.callbacks n s) ∨
      answer = .error (.stackOverflow p.limits.stack) ∨
      answer = .error (.callDepth p.limits.callDepth) := by
  induction n generalizing s with
  | zero => cases h
  | succ n ih =>
    rcases step_eq_free_or_refuses p s with heq | ⟨e, v, heq, hwhy⟩
    · cases hstep : p.step s with
      | finished answer' w' =>
        simp only [run, hstep] at h
        cases h
        left
        rw [walk_succ_finished (heq.symm.trans hstep)]
        simp only [callbacks, hstep, List.append_nil]
      | running t =>
        simp only [run, hstep] at h
        rcases ih h with hwalk | hlimit
        · left
          rw [walk_succ_running (heq.symm.trans hstep), hwalk]
          simp only [callbacks, hstep]
        · exact .inr hlimit
    · simp only [run, heq] at h
      cases h
      right
      rcases hwhy with ⟨_, _, ⟨he, _⟩ | ⟨he, _⟩⟩ | ⟨he, _⟩
      · exact .inl (congrArg _ he)
      · exact .inr (congrArg _ he)
      · exact .inr (congrArg _ he)

end Program

end EventScript
