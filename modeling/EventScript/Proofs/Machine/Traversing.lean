import EventScript.Proofs.Machine.Passing

/-!
Instructions that a call carries out one after the other, without calls or callbacks: where they are
between two offsets, and no limit gets in the way, the run comes to the state behind them.
-/
namespace EventScript

/-- The state with a value in a slot of the running call. -/
def State.store (s : State) (slot : Nat) (v : Value) : State :=
  { s with frame.locals := s.frame.locals.setIfInBounds slot (some v) }

namespace State

variable {s : State} {slot k : Nat} {v : Value}

theorem size_store (s : State) (slot : Nat) (v : Value) :
    (s.store slot v).frame.locals.size = s.frame.locals.size := Array.size_setIfInBounds

theorem locals_store_self (hslot : slot < s.frame.locals.size) :
    (s.store slot v).frame.locals[slot]? = some (some v) :=
  Array.getElem?_setIfInBounds_self_of_lt hslot

theorem locals_store_of_ne (hne : slot ≠ k) :
    (s.store slot v).frame.locals[k]? = s.frame.locals[k]? :=
  Array.getElem?_setIfInBounds_ne hne

theorem goto_eq_self {s : State} {n : Nat} {stack : List Value} (hnext : s.frame.next = n)
    (hstack : s.frame.stack = stack) : s.goto n stack = s := by
  rw [← hnext, ← hstack]
  rfl

end State

/-- If no limit gets in the way, the run comes from one state to the other, and up to there the
running call stays the same and stands at offsets from `low` up to `high`. -/
def Program.Traverses (p : Program) (low high : Nat) (s t : State) : Prop :=
  p.RunsFreely s → ∃ l, p.Passes s l t ∧
    ∀ u ∈ l, u.callers = s.callers ∧ low ≤ u.frame.next ∧ u.frame.next < high

namespace Program

variable {p : Program} {low high n : Nat} {s s' t : State} {v : Value} {stack : List Value}

theorem traverses_refl (p : Program) (low high : Nat) (s : State) : p.Traverses low high s s :=
  fun _ => ⟨[], .refl, by simp⟩

theorem traverses_of_goto (hnext : s.frame.next = n) (hstack : s.frame.stack = stack)
    (h : p.Traverses low high (s.goto n stack) t) : p.Traverses low high s t := by
  rwa [State.goto_eq_self hnext hstack] at h

/-- A stretch that neither begins the body of a loop nor is behind the loop. -/
theorem Traverses.apart {c : Loop} (h : p.Traverses low high s t) (hs : p.RunsFreely s)
    (hfirst : c.first < low ∨ high ≤ c.first) (hfinish : c.finish < low ∨ high ≤ c.finish) :
    ∃ l, p.Passes s l t ∧ c.Lasts l ∧ c.rounds l = 0 := by
  obtain ⟨l, hl, hbetween⟩ := h hs
  refine ⟨l, hl, Loop.apart_of_forall fun u hu => ?_⟩
  obtain ⟨_, hlow, hhigh⟩ := hbetween u hu
  omega

theorem traverses_of_free (hfree : p.free s = .running s') (hcallers : s'.callers = s.callers)
    (hlow : low ≤ s.frame.next) (hhigh : s.frame.next < high) (h : p.Traverses low high s' t) :
    p.Traverses low high s t := by
  intro hs
  have hstep := hs.step hfree
  obtain ⟨l, hl, hbetween⟩ := h (hs.of_reaches (.single hstep))
  refine ⟨s :: l, .step hstep hl, List.forall_mem_cons.2 ⟨⟨rfl, hlow, hhigh⟩, ?_⟩⟩
  rwa [hcallers] at hbetween

section

variable (hlow : low ≤ n) (hhigh : n < high)

include hlow hhigh

theorem traverses_loadLocal {slot : Nat} (hi : s.frame.routine.code[n]? = some (.loadLocal slot))
    (hv : s.frame.locals[slot]? = some (some v))
    (h : p.Traverses low high (s.goto (n + 1) (v :: stack)) t) :
    p.Traverses low high (s.goto n stack) t :=
  traverses_of_free (free_loadLocal (s := s.goto n stack) hi hv) rfl hlow hhigh h

theorem traverses_pushConstant {i : Nat} {l : Literal}
    (hi : s.frame.routine.code[n]? = some (.pushConstant i)) (hl : p.constants[i]? = some l)
    (h : p.Traverses low high (s.goto (n + 1) (l.toValue :: stack)) t) :
    p.Traverses low high (s.goto n stack) t :=
  traverses_of_free (free_pushConstant (s := s.goto n stack) hi hl) rfl hlow hhigh h

theorem traverses_storeLocal {slot : Nat} (hi : s.frame.routine.code[n]? = some (.storeLocal slot))
    (hslot : slot < s.frame.locals.size)
    (h : p.Traverses low high ((s.store slot v).goto (n + 1) stack) t) :
    p.Traverses low high (s.goto n (v :: stack)) t :=
  traverses_of_free (free_storeLocal (s := s.goto n (v :: stack)) hi rfl hslot) rfl hlow hhigh h

theorem traverses_jump {target : Nat} (hi : s.frame.routine.code[n]? = some (.jump target))
    (h : p.Traverses low high (s.goto target stack) t) : p.Traverses low high (s.goto n stack) t :=
  traverses_of_free (free_jump (s := s.goto n stack) hi) rfl hlow hhigh h

theorem traverses_jumpIfFalse {target : Nat} {b : Bool}
    (hi : s.frame.routine.code[n]? = some (.jumpIfFalse target))
    (h : p.Traverses low high (s.goto (if b then n + 1 else target) stack) t) :
    p.Traverses low high (s.goto n (.ofBool b :: stack)) t := by
  have hfree : p.free (s.goto n (.ofBool b :: stack)) =
      .running (s.goto (if b then n + 1 else target) stack) := by
    rw [free_jumpIfFalse (s := s.goto n (.ofBool b :: stack)) hi rfl]
    cases b <;> rfl
  exact traverses_of_free hfree rfl hlow hhigh h

theorem traverses_arithmetic {op : Arithmetic} {a b : Number}
    (hi : s.frame.routine.code[n]? = some (.arithmetic op))
    (h : p.Traverses low high (s.goto (n + 1) (.number (op.apply a b) :: stack)) t) :
    p.Traverses low high (s.goto n (.number b :: .number a :: stack)) t :=
  traverses_of_free
    (free_arithmetic (s := s.goto n (.number b :: .number a :: stack)) hi rfl) rfl hlow hhigh h

theorem traverses_atLeast {a b : Number} (hi : s.frame.routine.code[n]? = some .atLeast)
    (h : p.Traverses low high (s.goto (n + 1) (.ofBool (a.atLeast b) :: stack)) t) :
    p.Traverses low high (s.goto n (.number b :: .number a :: stack)) t :=
  traverses_of_free
    (free_atLeast (s := s.goto n (.number b :: .number a :: stack)) hi rfl) rfl hlow hhigh h

theorem traverses_lessThan {a b : Number} (hi : s.frame.routine.code[n]? = some .lessThan)
    (h : p.Traverses low high (s.goto (n + 1) (.ofBool (a.below b) :: stack)) t) :
    p.Traverses low high (s.goto n (.number b :: .number a :: stack)) t :=
  traverses_of_free
    (free_lessThan (s := s.goto n (.number b :: .number a :: stack)) hi rfl) rfl hlow hhigh h

theorem traverses_listSize {list : Ref} (hi : s.frame.routine.code[n]? = some (.native .listSize))
    (h : p.Traverses low high
      (s.goto (n + 1) (.number (.ofNat (s.world.heap.items list).size) :: stack)) t) :
    p.Traverses low high (s.goto n (.list list :: stack)) t := by
  have hargs : (s.goto n (.list list :: stack)).frame.stack = [.list list].reverse ++ stack := rfl
  exact traverses_of_free (free_native (s := s.goto n _) hi hargs rfl) rfl hlow hhigh h

theorem traverses_listGet {list : Ref} {index : Number} {item : Value}
    (hi : s.frame.routine.code[n]? = some (.native .listGet))
    (hitem : index.index?.bind ((s.world.heap.items list)[·]?) = some item)
    (h : p.Traverses low high (s.goto (n + 1) (item :: stack)) t) :
    p.Traverses low high (s.goto n (.number index :: .list list :: stack)) t := by
  have hget : NativeOp.listGet.apply [.list list, .number index] s.world =
      (.ok (some item), s.world) := by
    have hnumber : Effect.number (.number index) = pure index := rfl
    have hlist : Effect.list (.list list) = pure list := rfl
    have hlook : Effect.inspect (·.items list) s.world =
        (.ok (s.world.heap.items list), s.world) := rfl
    simp only [NativeOp.apply]
    rw [hnumber, pure_bind, hlist, pure_bind, Effect.bind_apply, hlook]
    simp only [hitem]
    rfl
  have hargs : (s.goto n (.number index :: .list list :: stack)).frame.stack =
      [.list list, .number index].reverse ++ stack := rfl
  have hfree := free_native (p := p) (s := s.goto n _) hi hargs rfl
  have hworld : (s.goto n (.number index :: .list list :: stack)).world = s.world := rfl
  rw [hworld, hget] at hfree
  exact traverses_of_free hfree rfl hlow hhigh h

end

end Program

end EventScript
