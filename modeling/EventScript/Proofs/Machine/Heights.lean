import EventScript.Proofs.Machine.Performing

/-!
Heights of stacks. What is done for an instruction only takes operands off the running call, until
its result is put on; the waiting calls stay as they are.
-/
namespace EventScript

namespace Machine

variable {α β : Type}

/-- Operands are at most taken off, and no other call is touched. -/
def Sheds (m : Machine α) : Prop := ∀ s : State,
  (m s).2.callers = s.callers ∧ (m s).2.frame.stack.length ≤ s.frame.stack.length

theorem sheds_pure (a : α) : Sheds (pure a) := fun _ => ⟨rfl, Nat.le_refl _⟩

theorem sheds_throw (e : RuntimeError) : Sheds (throw e : Machine α) :=
  fun _ => ⟨rfl, Nat.le_refl _⟩

theorem sheds_get : Sheds (get : Machine State) := fun _ => ⟨rfl, Nat.le_refl _⟩

theorem sheds_bind {m : Machine α} {f : α → Machine β} (hm : Sheds m) (hf : ∀ a, Sheds (f a)) :
    Sheds (m >>= f) := by
  intro s
  have hfirst := hm s
  rw [bind_apply]
  rcases hrun : m s with ⟨e | a, t⟩ <;> rw [hrun] at hfirst
  · exact hfirst
  · obtain ⟨hcallers, hstack⟩ := hf a t
    exact ⟨hcallers.trans hfirst.1, Nat.le_trans hstack hfirst.2⟩

theorem sheds_pop : Sheds pop := by
  intro s
  rw [pop_apply]
  cases hstack : s.frame.stack with
  | nil => exact ⟨rfl, by simp [hstack]⟩
  | cons v rest => exact ⟨rfl, by simp [State.withStack]⟩

theorem sheds_popMany (count : Nat) : Sheds (popMany count) := by
  intro s
  rw [popMany_apply]
  split
  · exact ⟨rfl, Nat.le_refl _⟩
  · exact ⟨rfl, by simp [State.withStack]⟩

theorem sheds_jump (target : Nat) : Sheds (jump target) := fun _ => ⟨rfl, Nat.le_refl _⟩

theorem sheds_lift (x : Effect α) : Sheds x.lift := fun _ => ⟨rfl, Nat.le_refl _⟩

theorem Operates.sheds {m : Machine α} (h : Operates m) : Sheds m := by
  induction h with
  | pop => exact sheds_pop
  | lift x => exact sheds_lift x
  | bind _ _ ih₁ ih₂ => exact sheds_bind ih₁ ih₂

variable {p : Program} {i : Instruction}

theorem Performs.sheds {m : Machine α} (h : Performs p i m) : Sheds m := by
  induction h with
  | pure a => exact sheds_pure a
  | fault | mismatch | unassigned => exact sheds_throw _
  | get => exact sheds_get
  | pop => exact sheds_pop
  | popMany count => exact sheds_popMany count
  | jump => exact sheds_jump _
  | store => exact fun _ => ⟨rfl, Nat.le_refl _⟩
  | native op => exact op.operates.sheds
  | host => exact (Operates.onHeap _).sheds
  | bind _ _ ih₁ ih₂ => exact sheds_bind ih₁ ih₂

end Machine

/-- Before its result goes onto the stack, an instruction has added no operand. -/
theorem Program.sheds_outcome (p : Program) (i : Instruction) : Machine.Sheds (p.outcome i) :=
  (p.performs i).sheds

end EventScript
