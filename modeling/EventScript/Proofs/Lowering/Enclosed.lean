import EventScript.Proofs.Lowering.Flow
import EventScript.Proofs.Machine.Traversing

/-!
Control within a stretch of lowered code. A call that comes into the code of a part stays in it
until it comes to its end, whatever it calls meanwhile, and slots that the part spares hold then
what they held before.
-/
namespace EventScript

/-- The whole code has this code at an offset. -/
def Code.Has (whole : Code) (start : Nat) (code : Code) : Prop :=
  ∀ (k : Nat) i, code[k]? = some i → whole[start + k]? = some i

/-- Control leaves the code between two offsets only at its end and does not come back to its
beginning, and some slots are not stored there. -/
structure Code.Encloses (code : Code) (first last : Nat) (spared : Nat → Prop) : Prop where
  le : first ≤ last
  stays : ∀ {n i}, first ≤ n → n < last → code[n]? = some i → ¬i.Returns ∧
    ∀ m, i.target? = some m → first < m ∧ m ≤ last
  spares : ∀ {n i slot}, first ≤ n → n < last → code[n]? = some i → spared slot →
    i.stores? ≠ some slot

/-- A call at offsets from `low` up to `last` that has kept some slots. -/
structure Frame.StaysIn (f : Frame) (low last : Nat) (spared : Nat → Prop) (f' : Frame) : Prop where
  routine : f'.routine = f.routine
  low : low ≤ f'.next
  high : f'.next ≤ last
  size : f'.locals.size = f.locals.size
  kept : ∀ slot, spared slot → f'.locals[slot]? = f.locals[slot]?

/-- The call that runs in `s` has stayed where it was, and runs or waits for calls it has made. -/
inductive State.StaysIn (s : State) (low last : Nat) (spared : Nat → Prop) (t : State) : Prop where
  | running (callers : t.callers = s.callers) (frame : s.frame.StaysIn low last spared t.frame)
  | waiting {inner f returns} (callers : t.callers = inner ++ (f, returns) :: s.callers)
      (frame : s.frame.StaysIn low last spared f)

theorem Code.Has.get {whole code : Code} {start : Nat} (h : whole.Has start code) (k : Nat)
    {i : Instruction} (hi : code[k]? = some i) : whole[start + k]? = some i := h k i hi

namespace Frame

variable {f f' : Frame} {i : Instruction} {low first last : Nat} {spared : Nat → Prop}

theorem staysIn_refl (hlow : low ≤ f.next) (hlast : f.next ≤ last) :
    f.StaysIn low last spared f := ⟨rfl, hlow, hlast, rfl, fun _ _ => rfl⟩

/-- An instruction that is not the end leads on within the stretch. -/
theorem StaysIn.moves {g : Frame} (h : g.StaysIn low last spared f) (hlow : first ≤ low)
    (hcode : g.routine.code.Encloses first last spared) (hend : f.next ≠ last)
    (hi : f.routine.code[f.next]? = some i) (hm : f.Moves i f') :
    g.StaysIn (first + 1) last spared f' := by
  have hfirst := Nat.le_trans hlow h.low
  have hlast := Nat.lt_of_le_of_ne h.high hend
  rw [h.routine] at hi
  have hnext : first + 1 ≤ f'.next ∧ f'.next ≤ last := by
    rcases Instruction.next_or_target hm.next with hnext | htarget
    · omega
    · exact (hcode.stays hfirst hlast hi).2 _ htarget
  refine ⟨hm.routine.trans h.routine, hnext.1, hnext.2, ?_, fun slot hslot => ?_⟩
  · rcases hm.locals with ⟨_, hlocals⟩ | ⟨_, _, _, _, hlocals⟩ <;> rw [hlocals]
    · exact h.size
    · rw [Array.size_setIfInBounds, h.size]
  · rw [← h.kept slot hslot]
    rcases hm.locals with ⟨_, hlocals⟩ | ⟨k, v, rfl, _, hlocals⟩ <;> rw [hlocals]
    rw [Array.getElem?_setIfInBounds_ne]
    rintro rfl
    exact hcode.spares hfirst hlast hi hslot rfl

theorem StaysIn.withStack (h : f.StaysIn low last spared f') (stack : List Value) :
    f.StaysIn low last spared { f' with stack } := ⟨h.routine, h.low, h.high, h.size, h.kept⟩

end Frame

namespace State

variable {p : Program} {s t t' : State} {low first last : Nat} {spared : Nat → Prop}

theorem StaysIn.mono {low' : Nat} (h : s.StaysIn low last spared t) (hlow : low' ≤ low) :
    s.StaysIn low' last spared t := by
  cases h with
  | running hcallers hf =>
    exact .running hcallers ⟨hf.routine, Nat.le_trans hlow hf.low, hf.high, hf.size, hf.kept⟩
  | waiting hcallers hf =>
    exact .waiting hcallers ⟨hf.routine, Nat.le_trans hlow hf.low, hf.high, hf.size, hf.kept⟩

/-- Where as many calls wait as at the beginning, it is the same call that runs. -/
theorem StaysIn.frame (h : s.StaysIn low last spared t)
    (hheight : t.callers.length = s.callers.length) :
    t.callers = s.callers ∧ s.frame.StaysIn low last spared t.frame := by
  cases h with
  | running hcallers hf => exact ⟨hcallers, hf⟩
  | waiting hcallers _ =>
    rw [hcallers, List.length_append, List.length_cons] at hheight
    omega

/-- A step of the call itself. -/
theorem staysIn_of_running (hcode : s.frame.routine.code.Encloses first last spared)
    (hcallers : t.callers = s.callers) (hf : s.frame.StaysIn low last spared t.frame)
    (hlow : first ≤ low) (hend : t.frame.next ≠ last) (h : p.step t = .running t') :
    s.StaysIn (first + 1) last spared t' := by
  cases Program.advances_of_step h with
  | within hi hcallers' hm =>
    exact .running (hcallers'.trans hcallers) (hf.moves hlow hcode hend hi hm)
  | @call function argc returns _ hi _ _ ht' =>
    subst ht'
    have hm : t.frame.Moves (.call function argc returns)
        { t.frame with next := t.frame.next + 1, stack := t.frame.stack.drop argc } :=
      ⟨rfl, .next (by simp) (by simp) (by simp), .inl ⟨by simp, rfl⟩⟩
    have hcaller (caller : Frame × Bool) : caller :: t.callers = [] ++ caller :: s.callers :=
      congrArg _ hcallers
    exact .waiting (hcaller _) (hf.moves hlow hcode hend hi hm)
  | back hi hends =>
    have hi : t.frame.routine.code[t.frame.next]? = some _ := hi
    rw [hf.routine] at hi
    have hlast := Nat.lt_of_le_of_ne hf.high hend
    exact absurd hends (hcode.stays (Nat.le_trans hlow hf.low) hlast hi).1

/-- A step of whatever call runs. -/
theorem StaysIn.step (h : s.StaysIn (first + 1) last spared t)
    (hcode : s.frame.routine.code.Encloses first last spared)
    (hend : ¬t.IsAt s.callers.length last) (hstep : p.step t = .running t') :
    s.StaysIn (first + 1) last spared t' := by
  cases h with
  | running hcallers hf =>
    exact staysIn_of_running hcode hcallers hf (Nat.le_succ first)
      (fun hnext => hend ⟨by rw [hcallers], hnext⟩) hstep
  | @waiting inner f returns hcallers hf =>
    cases Program.advances_of_step hstep with
    | within _ hcallers' _ => exact .waiting (hcallers'.trans hcallers) hf
    | call _ _ _ ht' =>
      have hmore : ∃ caller, t'.callers = (caller :: inner) ++ (f, returns) :: s.callers :=
        ⟨_, by rw [ht', List.cons_append, ← hcallers]; rfl⟩
      obtain ⟨_, hmore⟩ := hmore
      exact .waiting hmore hf
    | back _ _ hcallers' hresumed =>
      rw [hcallers] at hcallers'
      cases inner with
      | nil =>
        obtain ⟨hcaller, hrest⟩ := List.cons.inj hcallers'
        cases hcaller
        exact .running hrest.symm (hresumed ▸ hf.withStack _)
      | cons caller inner => exact .waiting (List.cons.inj hcallers').2.symm hf

/-- The call stays where it is until it comes to the end of the stretch. -/
theorem StaysIn.passes {l : List State} (h : s.StaysIn (first + 1) last spared t)
    (hcode : s.frame.routine.code.Encloses first last spared) (hpasses : p.Passes t l t')
    (hend : ∀ u ∈ l, ¬u.IsAt s.callers.length last) :
    ∀ u ∈ t' :: l, s.StaysIn (first + 1) last spared u := by
  induction hpasses with
  | refl => simpa using h
  | @step t _ _ _ now _ ih =>
    obtain ⟨ht, hend⟩ := List.forall_mem_cons.1 hend
    obtain ⟨hlast, hl⟩ := List.forall_mem_cons.1 (ih (h.step hcode ht now) hend)
    exact List.forall_mem_cons.2 ⟨hlast, List.forall_mem_cons.2 ⟨h, hl⟩⟩

end State

/-- The call that runs is still the one that runs in `s`. -/
structure State.Continues (s t : State) : Prop where
  callers : t.callers = s.callers
  routine : t.frame.routine = s.frame.routine
  size : t.frame.locals.size = s.frame.locals.size

namespace State.Continues

variable {s t u : State}

theorem refl (s : State) : s.Continues s := ⟨rfl, rfl, rfl⟩

theorem goto (h : s.Continues t) (next : Nat) (stack : List Value) :
    s.Continues (t.goto next stack) := ⟨h.callers, h.routine, h.size⟩

theorem store (h : s.Continues t) (slot : Nat) (v : Value) : s.Continues (t.store slot v) :=
  ⟨h.callers, h.routine, (size_store ..).trans h.size⟩

theorem of_staysIn {low last : Nat} {spared : Nat → Prop} (h : s.Continues t)
    (hcallers : u.callers = t.callers) (hstays : t.frame.StaysIn low last spared u.frame) :
    s.Continues u :=
  ⟨hcallers.trans h.callers, hstays.routine.trans h.routine, hstays.size.trans h.size⟩

end State.Continues

/-- Where a lowered part stands in the code, control stays in it, and slots that no variable has
before it are spared. -/
theorem Code.Flows.encloses {scope scope' : Scope} {start : Nat} {code whole : Code}
    (h : Flows scope scope' start code) (hcode : whole.Has start code) :
    whole.Encloses start (start + code.size) scope.Hides := by
  have hget {n : Nat} {i : Instruction} (hstart : start ≤ n) (hend : n < start + code.size)
      (hi : whole[n]? = some i) : code[n - start]? = some i := by
    have hk : n - start < code.size := by omega
    have hwhole := hcode (n - start) _ (Array.getElem?_eq_getElem hk)
    rw [Nat.add_sub_cancel' hstart, hi] at hwhole
    rw [Array.getElem?_eq_getElem hk, ← Option.some.inj hwhole]
  refine ⟨Nat.le_add_right _ _, fun hstart hend hi => ?_, fun hstart hend hi hslot => ?_⟩
  · exact h.stays _ _ (hget hstart hend hi)
  · exact (h.spares _ hslot _ _ (hget hstart hend hi)).2

namespace Loop

variable {c : Loop} {p : Program} {s u : State} {m : List State} {spared : Nat → Prop}

/-- A body that comes to its end: the loop is still on, has begun the body once, and the call is
where the body ends and has kept the slots that the body spares. An empty body has ended before it
has begun. -/
theorem carried_out (hcode : s.frame.routine.code.Encloses c.first c.last spared)
    (hfinish : c.last < c.finish) (hs : s.IsAt c.height c.first) (h : p.Passes s m u)
    (hu : u.IsAt c.height c.last) : ∃ l t, p.Passes s l t ∧ c.Lasts l ∧
      c.rounds l = (if c.first = c.last then 0 else 1) ∧ t.callers = s.callers ∧
        t.frame.next = c.last ∧ s.frame.StaysIn c.first c.last spared t.frame := by
  obtain ⟨l, t, hl, ht, hend⟩ := h.exists_first (P := fun t => t.IsAt c.height c.last) hu
  have hle := hcode.le
  obtain ⟨hheight, hnext⟩ := hs
  cases hl with
  | refl =>
    have hempty : c.first = c.last := by rw [← hnext, ht.2]
    refine ⟨[], s, .refl, by simp [Lasts], by simp [rounds, hempty], rfl, ht.2, ?_⟩
    exact Frame.staysIn_refl (Nat.le_of_eq hnext.symm) (by omega)
  | @step _ s' _ l now later =>
    obtain ⟨hfirst, hend⟩ := List.forall_mem_cons.1 hend
    have hne : c.first ≠ c.last := fun heq => hfirst ⟨hheight, hnext.trans heq⟩
    have hbegun : s.StaysIn (c.first + 1) c.last spared s' :=
      State.staysIn_of_running hcode rfl (Frame.staysIn_refl (Nat.le_of_eq hnext.symm) (by omega))
        (Nat.le_refl _) (by omega) now
    rw [← hheight] at hend
    obtain ⟨hlast, hbetween⟩ := List.forall_mem_cons.1 (hbegun.passes hcode later hend)
    have hat {v : State} (hv : s.StaysIn (c.first + 1) c.last spared v)
        (hheight' : v.callers.length = c.height) : c.first < v.frame.next ∧ v.frame.next ≤ c.last :=
      have hframe := (hv.frame (hheight'.trans hheight.symm)).2
      ⟨hframe.low, hframe.high⟩
    refine ⟨s :: l, t, .step now later, ?_, ?_, ?_⟩
    · refine List.forall_mem_cons.2 ⟨fun hv => ?_, fun v hv hat' => ?_⟩
      · have := hv.2
        omega
      · have := hat (hbetween v hv) hat'.1
        have := hat'.2
        omega
    · have hnone : c.rounds l = 0 := by
        rw [rounds, List.countP_eq_zero]
        intro v hv
        rw [decide_eq_true_eq]
        rintro ⟨hheight', hnext'⟩
        have := (hat (hbetween v hv) hheight').1
        omega
      have hone : c.rounds (s :: l) = c.rounds l + 1 :=
        List.countP_cons_of_pos (decide_eq_true ⟨hheight, hnext⟩)
      rw [hone, hnone, if_neg hne]
    · obtain ⟨hcallers, hframe⟩ := hlast.frame (ht.1.trans hheight.symm)
      exact ⟨hcallers, ht.2, hframe.routine, by have := hframe.low; omega, hframe.high, hframe.size,
        hframe.kept⟩

/-- A body that comes to its end makes a round, if code leads on from there without coming to the
body or out of the loop. -/
theorem comes_round {P : State → Prop} (hs : p.RunsFreely s)
    (hcode : s.frame.routine.code.Encloses c.first c.last spared) (hfinish : c.last < c.finish)
    (hat : s.IsAt c.height c.first) (h : p.Passes s m u) (hu : u.IsAt c.height c.last)
    (hback : ∀ t, t.callers = s.callers → t.frame.next = c.last →
      s.frame.StaysIn c.first c.last spared t.frame → p.Reaches s t →
        ∃ t' v, p.free t = .running t' ∧ p.Traverses (c.last + 1) c.finish t' v ∧ P v) :
    ∃ l v, p.Passes s l v ∧ c.Lasts l ∧ c.rounds l = 1 ∧ P v := by
  obtain ⟨l, t, hl, hlasts, hrounds, hcallers, hnext, hstays⟩ := carried_out hcode hfinish hat h hu
  obtain ⟨t', v, hfree, htraverses, hv⟩ := hback t hcallers hnext hstays hl.reaches
  have hfrom := hs.of_reaches hl.reaches
  have hstep := hfrom.step hfree
  obtain ⟨l', hl', hlasts', hrounds'⟩ := htraverses.apart (hfrom.of_reaches (.single hstep))
    (.inl (Nat.lt_succ_of_le hcode.le)) (.inr (Nat.le_refl c.finish))
  have hheight : t.callers.length = c.height := by rw [hcallers, hat.1]
  refine ⟨l ++ t :: l', v, hl.trans (.step hstep hl'), ?_, ?_, hv⟩
  · refine lasts_append.2 ⟨hlasts, List.forall_mem_cons.2 ⟨fun hout => ?_, hlasts'⟩⟩
    have := hout.2
    omega
  · have htimes : t.IsAt c.height c.first ↔ c.first = c.last := by
      rw [State.IsAt, hnext, eq_comm (a := c.first)]
      exact and_iff_right hheight
    rw [rounds_append, rounds_cons, hrounds, hrounds']
    simp only [htimes]
    split <;> rfl

end Loop

end EventScript
