import EventScript.Proofs.Shape.Run

/-!
Stretches of a run, with the states they pass through, and the loops of a call as such stretches: a
loop comes round to its body again and again until it is left.
-/
namespace EventScript

/-- The running call stands at an offset, and so many calls wait for it. -/
def State.IsAt (s : State) (height next : Nat) : Prop :=
  s.callers.length = height ∧ s.frame.next = next

instance (s : State) (height next : Nat) : Decidable (s.IsAt height next) :=
  inferInstanceAs (Decidable (_ ∧ _))

/-- The run goes on from one state to another through these states, the first one included. -/
inductive Program.Passes (p : Program) : State → List State → State → Prop where
  | refl {s} : p.Passes s [] s
  | step {s s' t l} (now : p.step s = .running s') (later : p.Passes s' l t) : p.Passes s (s :: l) t

/-- No limit gets in the way of the run that goes on from here. -/
def Program.RunsFreely (p : Program) (s : State) : Prop :=
  ∀ t, p.Reaches s t → p.step t = p.free t

namespace Program

variable {p : Program} {s s' t u : State} {l m : List State}

theorem Passes.trans (h : p.Passes s l t) (h' : p.Passes t m u) : p.Passes s (l ++ m) u := by
  induction h with
  | refl => exact h'
  | step now _ ih => exact .step now (ih h')

/-- A run goes one way: of two stretches the one continues the other. -/
theorem Passes.continues (h : p.Passes s l t) (h' : p.Passes s m u) :
    (∃ k, p.Passes t k u ∧ m = l ++ k) ∨ ∃ k, p.Passes u k t ∧ l = m ++ k := by
  induction h generalizing m with
  | refl => exact .inl ⟨m, h', rfl⟩
  | step now later ih =>
    cases h' with
    | refl => exact .inr ⟨_, .step now later, rfl⟩
    | step now' later' =>
      cases now.symm.trans now'
      rcases ih later' with ⟨k, hk, rfl⟩ | ⟨k, hk, rfl⟩
      · exact .inl ⟨k, hk, rfl⟩
      · exact .inr ⟨k, hk, rfl⟩

theorem Passes.reaches (h : p.Passes s l t) : p.Reaches s t := by
  induction h with
  | refl => exact .refl
  | step now _ ih => exact .head now ih

/-- The stretch up to the first state of a kind. -/
theorem Passes.exists_first {P : State → Prop} (h : p.Passes s l t) (ht : P t) :
    ∃ m u, p.Passes s m u ∧ P u ∧ ∀ v ∈ m, ¬P v := by
  induction h with
  | refl => exact ⟨[], _, .refl, ht, by simp⟩
  | @step s _ _ _ now _ ih =>
    by_cases hs : P s
    · exact ⟨[], s, .refl, hs, by simp⟩
    · obtain ⟨m, u, hpasses, hu, hm⟩ := ih ht
      exact ⟨s :: m, u, .step now hpasses, hu, List.forall_mem_cons.2 ⟨hs, hm⟩⟩

/-- The run is over after at most so many steps, and up to there all its states have a property. -/
def checks (p : Program) (P : State → Bool) : (fuel : Nat) → State → Bool
  | 0, _ => false
  | fuel + 1, s => P s && match p.step s with
    | .running s' => p.checks P fuel s'
    | .finished .. => true

theorem Passes.of_checks {P : State → Bool} (fuel : Nat) (h : p.Passes s l t)
    (hchecks : p.checks P fuel s = true) : P t = true := by
  induction h generalizing fuel with
  | refl =>
    cases fuel with
    | zero => cases hchecks
    | succ fuel => exact (Bool.and_eq_true_iff.1 hchecks).1
  | step now _ ih =>
    cases fuel with
    | zero => cases hchecks
    | succ fuel =>
      have hlater := (Bool.and_eq_true_iff.1 hchecks).2
      rw [now] at hlater
      exact ih fuel hlater

theorem RunsFreely.of_reaches (h : p.RunsFreely s) (hreaches : p.Reaches s t) : p.RunsFreely t :=
  fun u hu => h u (hreaches.trans hu)

theorem RunsFreely.step (h : p.RunsFreely s) (hfree : p.free s = .running s') :
    p.step s = .running s' := by
  rw [h s .refl, hfree]

end Program

/-- A loop in a call: how many calls wait for that call, at which offsets the body begins and ends,
and where code goes on behind the loop. -/
structure Loop where
  height : Nat
  first : Nat
  last : Nat
  finish : Nat

namespace Loop

section

variable (c : Loop)

/-- How often the body is begun in these states. -/
def rounds (l : List State) : Nat := l.countP fun t => t.IsAt c.height c.first

/-- The loop is over in none of these states. -/
def Lasts (l : List State) : Prop := ∀ t ∈ l, ¬t.IsAt c.height c.finish

/-- In the loop that begins here the body comes to its end whenever it is begun for one of the first
`n` times. -/
def Completes (p : Program) (s : State) (n : Nat) : Prop :=
  ∀ l t, p.Passes s l t → c.Lasts l → c.rounds l < n → t.IsAt c.height c.first →
    ∃ m u, p.Passes t m u ∧ u.IsAt c.height c.last

/-- How a loop comes round. After so many rounds it has `turned`; then the body has `begun` or the
loop has `ended`, and a body that comes to its end makes a round. -/
structure Turns (p : Program) (s : State) (turned begun ended : Nat → State → Prop) : Prop where
  enters : ∃ l t, p.Passes s l t ∧ c.Lasts l ∧ c.rounds l = 0 ∧ turned 0 t
  looks : ∀ i l t, p.Passes s l t → c.Lasts l → c.rounds l = i → turned i t →
    ∃ m u, p.Passes t m u ∧ c.Lasts m ∧ c.rounds m = 0 ∧
      (u.IsAt c.height c.first ∧ begun i u ∨ u.IsAt c.height c.finish ∧ ended i u)
  repeats : ∀ i t m u, p.Reaches s t → t.IsAt c.height c.first → begun i t → p.Passes t m u →
    u.IsAt c.height c.last →
      ∃ l v, p.Passes t l v ∧ c.Lasts l ∧ c.rounds l = 1 ∧ turned (i + 1) v

end

variable {c : Loop} {p : Program} {s t u : State} {l m : List State} {n : Nat}
  {turned begun ended : Nat → State → Prop}

theorem rounds_append : c.rounds (l ++ m) = c.rounds l + c.rounds m := List.countP_append

theorem rounds_cons :
    c.rounds (t :: l) = c.rounds l + if t.IsAt c.height c.first then 1 else 0 := by
  simp [rounds, List.countP_cons]

theorem lasts_append : c.Lasts (l ++ m) ↔ c.Lasts l ∧ c.Lasts m := List.forall_mem_append

/-- Where code neither begins the body nor goes on behind the loop. -/
theorem apart_of_forall (h : ∀ t ∈ l, t.frame.next ≠ c.first ∧ t.frame.next ≠ c.finish) :
    c.Lasts l ∧ c.rounds l = 0 := by
  refine ⟨fun t ht hat => (h t ht).2 hat.2, List.countP_eq_zero.2 fun t ht hat => ?_⟩
  exact (h t ht).1 (of_decide_eq_true hat).2

theorem Completes.mono {n' : Nat} (h : c.Completes p s n) (hle : n' ≤ n) : c.Completes p s n' :=
  fun l t hl hlasts hrounds => h l t hl hlasts (Nat.lt_of_lt_of_le hrounds hle)

/-- As long as the body comes to its end, the loop begins another round or is over. -/
theorem Turns.begun_or_ended (h : c.Turns p s turned begun ended) (hbody : c.Completes p s n) :
    (∃ l t, p.Passes s l t ∧ c.Lasts l ∧ c.rounds l = n ∧ t.IsAt c.height c.first ∧ begun n t) ∨
      ∃ l t, p.Passes s l t ∧ c.Lasts l ∧ c.rounds l ≤ n ∧ t.IsAt c.height c.finish ∧
        ended (c.rounds l) t := by
  -- Where the loop has turned, a look tells how it goes on.
  have hlook {i : Nat} {l : List State} {t : State} (hl : p.Passes s l t) (hlasts : c.Lasts l)
      (hrounds : c.rounds l = i) (ht : turned i t) :
      (∃ l t, p.Passes s l t ∧ c.Lasts l ∧ c.rounds l = i ∧ t.IsAt c.height c.first ∧ begun i t) ∨
        ∃ l t, p.Passes s l t ∧ c.Lasts l ∧ c.rounds l ≤ i ∧ t.IsAt c.height c.finish ∧
          ended (c.rounds l) t := by
    obtain ⟨m, u, hm, hlasts', hrounds', hu⟩ := h.looks i l t hl hlasts hrounds ht
    have hboth : c.rounds (l ++ m) = i := by rw [rounds_append, hrounds, hrounds', Nat.add_zero]
    rcases hu with ⟨hat, hu⟩ | ⟨hat, hu⟩
    · exact .inl ⟨_, u, hl.trans hm, lasts_append.2 ⟨hlasts, hlasts'⟩, hboth, hat, hu⟩
    · exact .inr ⟨_, u, hl.trans hm, lasts_append.2 ⟨hlasts, hlasts'⟩, Nat.le_of_eq hboth, hat,
        hboth.symm ▸ hu⟩
  induction n with
  | zero =>
    obtain ⟨l, t, hl, hlasts, hrounds, ht⟩ := h.enters
    exact hlook hl hlasts hrounds ht
  | succ n ih =>
    rcases ih (hbody.mono (Nat.le_succ n)) with ⟨l, t, hl, hlasts, hrounds, hat, ht⟩ |
      ⟨l, t, hl, hlasts, hrounds, hover⟩
    · obtain ⟨m, u, hm, hu⟩ := hbody l t hl hlasts (by omega) hat
      obtain ⟨m', v, hm', hlasts', hrounds', hv⟩ := h.repeats n t m u hl.reaches hat ht hm hu
      exact hlook (hl.trans hm') (lasts_append.2 ⟨hlasts, hlasts'⟩)
        (by rw [rounds_append, hrounds, hrounds']) hv
    · exact .inr ⟨l, t, hl, hlasts, Nat.le_succ_of_le hrounds, hover⟩

/-- As long as the body comes to its end, a run that is at the beginning of the body has just begun
a round, one that is behind the loop has ended it, and any other goes on. -/
theorem Turns.at_every_state (h : c.Turns p s turned begun ended) (hl : p.Passes s l t)
    (hlasts : c.Lasts l) (hbody : c.Completes p s (c.rounds l)) :
    t.IsAt c.height c.first ∧ begun (c.rounds l) t ∨
      t.IsAt c.height c.finish ∧ ended (c.rounds l) t ∨
      ¬t.IsAt c.height c.first ∧ ¬t.IsAt c.height c.finish ∧ ∃ t', p.step t = .running t' := by
  -- Where the run goes on to the next such state, it is at none before.
  have hbefore {k : List State} (hlasts : c.Lasts (l ++ t :: k))
      (hrounds : c.rounds (l ++ t :: k) ≤ c.rounds l) :
      ¬t.IsAt c.height c.first ∧ ¬t.IsAt c.height c.finish := by
    refine ⟨fun hat => ?_, hlasts t (List.mem_append_right _ List.mem_cons_self)⟩
    rw [rounds_append, rounds_cons, if_pos hat] at hrounds
    omega
  rcases h.begun_or_ended hbody with ⟨m, u, hm, hlasts', hrounds, hat, hu⟩ |
    ⟨m, u, hm, hlasts', hrounds, hat, hu⟩
  · rcases hl.continues hm with ⟨k, hk, rfl⟩ | ⟨k, hk, rfl⟩
    · cases hk with
      | refl => exact .inl ⟨hat, hu⟩
      | step now _ =>
        obtain ⟨hfirst, hfinish⟩ := hbefore hlasts' (Nat.le_of_eq hrounds)
        exact .inr (.inr ⟨hfirst, hfinish, _, now⟩)
    · cases hk with
      | refl => exact .inl ⟨hat, hu⟩
      | step now _ =>
        rw [rounds_append, rounds_cons, if_pos hat] at hrounds
        omega
  · rcases hl.continues hm with ⟨k, hk, rfl⟩ | ⟨k, hk, rfl⟩
    · cases hk with
      | refl =>
        rw [List.append_nil] at hu
        exact .inr (.inl ⟨hat, hu⟩)
      | step now _ =>
        obtain ⟨hfirst, hfinish⟩ := hbefore hlasts' hrounds
        exact .inr (.inr ⟨hfirst, hfinish, _, now⟩)
    · cases hk with
      | refl =>
        rw [List.append_nil]
        exact .inr (.inl ⟨hat, hu⟩)
      | step now _ => exact absurd hat (hlasts u (List.mem_append_right _ List.mem_cons_self))

end Loop

end EventScript
