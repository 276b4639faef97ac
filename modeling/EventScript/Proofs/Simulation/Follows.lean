import EventScript.Proofs.Evaluation
import EventScript.Proofs.Machine.Walk
import EventScript.Proofs.Shape.Compiled

/-!
What it means that the machine does what an evaluation answers. A walk follows an evaluation piece by
piece: bound evaluations are followed one after the other, and each instruction follows the piece
that it carries out.
-/
namespace EventScript

namespace Program

variable (p : Program)

/-- From this state the machine comes to a state where the answer has arrived, ends in the same
error, or goes on for as long as the fuel says if there is no answer. -/
def Follows {β : Type} (fuel : Nat) (s : State) (before : Store)
    (arrives : β → World → State → Prop) : Option (Except RuntimeError β × Store) → Prop
  | none => p.Lasts fuel s
  | some (.error e, after) => ∃ n calls,
    p.walk n s = (.finished (.error e) after.world, calls) ∧ after.calls = before.calls ++ calls
  | some (.ok b, after) => ∃ n calls t, p.walk n s = (.running t, calls) ∧
    after.calls = before.calls ++ calls ∧ arrives b after.world t

variable {p} {α β γ : Type} {fuel fuel' n : Nat} {s t : State} {before mid : Store}
  {calls : List (HostFunction × List Value)} {arrives arrives' : β → World → State → Prop}
  {o : Option (Except RuntimeError β × Store)}

/-- Nothing has to be done for an answer that has arrived. -/
theorem follows_ok {b : β} (h : arrives b before.world s) :
    p.Follows fuel s before arrives (some (.ok b, before)) :=
  ⟨0, [], s, rfl, by rw [List.append_nil], h⟩

/-- The first part of a walk has been done. -/
theorem follows_of_walk (hwalk : p.walk n s = (.running t, calls))
    (hcalls : mid.calls = before.calls ++ calls) (h : p.Follows fuel t mid arrives o) :
    p.Follows (n + fuel) s before arrives o := by
  rcases o with _ | ⟨e | b, after⟩
  · exact lasts_add hwalk h
  · obtain ⟨m, calls', hm, hafter⟩ := h
    refine ⟨n + m, calls ++ calls', ?_, ?_⟩
    · rw [walk_add hwalk, hm]
    · rw [hafter, hcalls, List.append_assoc]
  · obtain ⟨m, calls', t', hm, hafter, harrives⟩ := h
    refine ⟨n + m, calls ++ calls', t', ?_, ?_, harrives⟩
    · rw [walk_add hwalk, hm]
    · rw [hafter, hcalls, List.append_assoc]

theorem follows_of_le (h : p.Follows fuel s before arrives o) (hle : fuel' ≤ fuel) :
    p.Follows fuel' s before arrives o := by
  rcases o with _ | ⟨e | b, after⟩
  · exact lasts_of_le h hle
  · exact h
  · exact h

theorem Follows.imp (h : p.Follows fuel s before arrives o)
    (himp : ∀ b w t, arrives b w t → arrives' b w t) : p.Follows fuel s before arrives' o := by
  rcases o with _ | ⟨e | b, after⟩
  · exact h
  · exact h
  · obtain ⟨n, calls, t, hwalk, hcalls, harrives⟩ := h
    exact ⟨n, calls, t, hwalk, hcalls, himp _ _ _ harrives⟩

/-- Where the answer has arrived, the walk can go on. -/
theorem Follows.trans (h : p.Follows fuel s before arrives o)
    (hrest : ∀ b after t, arrives b after.world t →
      p.Follows fuel t after arrives' (some (.ok b, after))) :
    p.Follows fuel s before arrives' o := by
  rcases o with _ | ⟨e | b, after⟩
  · exact h
  · exact h
  · obtain ⟨n, calls, t, hwalk, hcalls, harrives⟩ := h
    exact follows_of_walk hwalk hcalls (hrest b after t harrives)

theorem Follows.map {f : β → γ} {arrives' : γ → World → State → Prop}
    (h : p.Follows fuel s before arrives o)
    (himp : ∀ b w t, arrives b w t → arrives' (f b) w t) :
    p.Follows fuel s before arrives' (o.map fun r => (r.1.map f, r.2)) := by
  rcases o with _ | ⟨e | b, after⟩
  · exact h
  · exact h
  · obtain ⟨n, calls, t, hwalk, hcalls, harrives⟩ := h
    exact ⟨n, calls, t, hwalk, hcalls, himp b after.world t harrives⟩

/-- A step that calls no callback. -/
theorem follows_succ_of_free (hfree : p.free s = .running t) (hi : p.invocation? s = none)
    (h : p.Follows fuel t before arrives o) : p.Follows (fuel + 1) s before arrives o := by
  have hwalk : p.walk 1 s = (.running t, []) := by
    rw [walk_succ_running hfree, hi]
    rfl
  rw [Nat.add_comm]
  exact follows_of_walk hwalk (by rw [List.append_nil]) h

theorem follows_of_free (hfree : p.free s = .running t) (hi : p.invocation? s = none)
    (h : p.Follows fuel t before arrives o) : p.Follows fuel s before arrives o :=
  follows_of_le (follows_succ_of_free hfree hi h) (Nat.le_succ fuel)

end Program

theorem Effect.map_apply {α β : Type} (f : α → β) (x : Effect α) (w : World) :
    (f <$> x) w = ((x w).1.map f, (x w).2) := by
  change (ExceptT.map f x) w = _
  simp only [ExceptT.map, ExceptT.mk, bind, StateT.bind]
  rcases x w with ⟨e | a, w'⟩ <;> rfl

namespace Eval

variable {α β : Type} {p : Program} {fuel : Nat} {s : State} {env : Env} {store : Store}

theorem bind_apply (x : Eval α) (f : α → Eval β) : (x >>= f) env store = match x env store with
    | none => none
    | some (.error e, after) => some (.error e, after)
    | some (.ok (a, env'), after) => f a env' after := by
  change Option.bind (x env store) _ = _
  rcases x env store with _ | ⟨e | ⟨a, env'⟩, after⟩ <;> rfl

theorem pure_apply (a : α) : (pure a : Eval α) env store = some (.ok (a, env), store) := rfl

theorem value_pure_some (v : Value) : value (pure (some v)) = pure v := rfl

/-- Evaluations that are bound are followed one after the other. -/
theorem follows_bind {x : Eval α} {f : α → Eval β} {arrives : α × Env → World → State → Prop}
    {arrives' : β × Env → World → State → Prop} (hx : p.Follows fuel s store arrives (x env store))
    (hf : ∀ a env' store' t, arrives (a, env') store'.world t →
      p.Follows fuel t store' arrives' (f a env' store')) :
    p.Follows fuel s store arrives' ((x >>= f) env store) := by
  rw [bind_apply]
  rcases hresult : x env store with _ | ⟨e | ⟨a, env'⟩, after⟩ <;> rw [hresult] at hx
  · exact hx
  · exact hx
  · obtain ⟨n, calls, t, hwalk, hcalls, harrives⟩ := hx
    exact Program.follows_of_le (Program.follows_of_walk hwalk hcalls (hf a env' after t harrives))
      (Nat.le_add_left fuel n)

theorem follows_pure {a : α} {arrives : α × Env → World → State → Prop}
    (h : arrives (a, env) store.world s) :
    p.Follows fuel s store arrives ((pure a : Eval α) env store) := Program.follows_ok h

/-- A result that is known to be a value. -/
theorem follows_value {x : Eval (Option Value)} {arrives : Option Value × Env → World → State → Prop}
    (hx : p.Follows fuel s store arrives (x env store))
    (hvalue : ∀ {a w t}, arrives a w t → a.1 ≠ none) :
    p.Follows fuel s store (fun a => arrives (some a.1, a.2)) (value x env store) := by
  apply follows_bind hx
  intro v? env' store' t h
  cases v? with
  | none => exact absurd rfl (hvalue h)
  | some v => exact follows_pure h

/-- An instruction that does to the world what an effect does. -/
theorem follows_lift {x : Effect α} {y : Effect (Option Value)} {result : α → Option Value}
    {rest : List Value} (hy : y = result <$> x) (hw : s.world = store.world)
    (hi : p.invocation? s = none)
    (hfree : p.free s = match y s.world with
      | (.ok v?, w) => .running ((s.goto (s.frame.next + 1) (v?.toList ++ rest)).inWorld w)
      | (.error e, w) => .finished (.error e) w) :
    p.Follows fuel s store (fun a w t => x store.world = (.ok a.1, w) ∧ a.2 = env ∧
      t = (s.goto (s.frame.next + 1) ((result a.1).toList ++ rest)).inWorld w)
      (lift x env store) := by
  rw [hy, Effect.map_apply, hw] at hfree
  rw [Eval.lift]
  rcases hx : x store.world with ⟨e | a, w⟩ <;> rw [hx] at hfree
  · refine ⟨1, [], ?_, by rw [List.append_nil]⟩
    rw [Program.walk_succ_finished hfree, hi]
    rfl
  · refine ⟨1, [], _, ?_, by rw [List.append_nil], rfl, rfl, rfl⟩
    rw [Program.walk_succ_running hfree, hi]
    rfl

theorem follows_host {i argc : Nat} {call : HostFunction} {args rest : List Value} {returns : Bool}
    (hw : s.world = store.world) (hi : s.instruction? = some (.invokeHost i argc returns))
    (hs : s.frame.stack = args.reverse ++ rest) (hargs : args.length = argc)
    (hcall : p.hosts[i]? = some call) :
    p.Follows fuel s store (fun a w t => (a.1 = none ↔ returns = false) ∧ a.2 = env ∧
      t = (s.goto (s.frame.next + 1) (a.1.toList ++ rest)).inWorld w)
      (host call args returns env store) := by
  have hinvocation : p.invocation? s = some (call, args) := by
    have hlength : argc = args.reverse.length := by rw [List.length_reverse, hargs]
    simp only [Program.invocation?, hi, hs, hcall, Option.map_some]
    rw [if_pos (by rw [List.length_append]; omega), List.take_left' hlength.symm,
      List.reverse_reverse]
  have hfree := Program.free_invokeHost hi hs hargs hcall
  rw [hw] at hfree
  rw [host, lift]
  rcases hx : Effect.host call args returns store.world with ⟨e | v?, w⟩ <;> rw [hx] at hfree
  · refine ⟨1, _, ?_, rfl⟩
    rw [Program.walk_succ_finished hfree, hinvocation]
    rfl
  · obtain ⟨v, _, _, rfl⟩ := Effect.of_host_eq_ok hx
    refine ⟨1, _, _, ?_, rfl, by cases returns <;> simp, rfl, rfl⟩
    rw [Program.walk_succ_running hfree, hinvocation]
    rfl

end Eval

/-- What stays the same while a call runs: its routine, the calls that wait, and the scope in which
the body ends. -/
structure Site where
  routine : Routine
  callers : List (Frame × Bool)
  scope : Scope

namespace Site

variable (c : Site)

/-- The state in which the call stands at an offset. -/
def state (n : Nat) (stack : List Value) (locals : Array (Option Value)) (w : World) : State where
  frame := { routine := c.routine, next := n, locals, stack }
  callers := c.callers
  world := w

variable {c} {p : Program} {β : Type} {fuel n : Nat} {stack : List Value}
  {locals : Array (Option Value)} {w : World} {store : Store} {v : Value}
  {arrives : β → World → State → Prop} {o : Option (Except RuntimeError β × Store)}

theorem invocation?_eq_none {i : Instruction} (hi : c.routine.code[n]? = some i)
    (hhost : ∀ index argc returns, i ≠ .invokeHost index argc returns) :
    p.invocation? (c.state n stack locals w) = none := by
  have hi : (c.state n stack locals w).instruction? = some i := hi
  unfold Program.invocation?
  rw [hi]
  cases i <;> first | rfl | exact absurd rfl (hhost _ _ _)

theorem follows_pushConstant {i : Nat} {l : Literal}
    (hi : c.routine.code[n]? = some (.pushConstant i)) (hl : p.constants[i]? = some l)
    (h : p.Follows fuel (c.state (n + 1) (l.toValue :: stack) locals w) store arrives o) :
    p.Follows fuel (c.state n stack locals w) store arrives o :=
  Program.follows_of_free (Program.free_pushConstant hi hl)
    (invocation?_eq_none hi (by simp)) h

theorem follows_loadLocal {slot : Nat} (hi : c.routine.code[n]? = some (.loadLocal slot))
    (hv : locals[slot]? = some (some v))
    (h : p.Follows fuel (c.state (n + 1) (v :: stack) locals w) store arrives o) :
    p.Follows fuel (c.state n stack locals w) store arrives o :=
  Program.follows_of_free (Program.free_loadLocal hi hv) (invocation?_eq_none hi (by simp)) h

/-- The head of a loop, where fuel is spent. -/
theorem follows_succ_loadLocal {slot : Nat} (hi : c.routine.code[n]? = some (.loadLocal slot))
    (hv : locals[slot]? = some (some v))
    (h : p.Follows fuel (c.state (n + 1) (v :: stack) locals w) store arrives o) :
    p.Follows (fuel + 1) (c.state n stack locals w) store arrives o :=
  Program.follows_succ_of_free (Program.free_loadLocal hi hv) (invocation?_eq_none hi (by simp)) h

theorem follows_storeLocal {slot : Nat} (hi : c.routine.code[n]? = some (.storeLocal slot))
    (hslot : slot < locals.size)
    (h : p.Follows fuel (c.state (n + 1) stack (locals.setIfInBounds slot (some v)) w) store
      arrives o) :
    p.Follows fuel (c.state n (v :: stack) locals w) store arrives o :=
  Program.follows_of_free (Program.free_storeLocal hi rfl hslot) (invocation?_eq_none hi (by simp)) h

theorem follows_pop (hi : c.routine.code[n]? = some .pop)
    (h : p.Follows fuel (c.state (n + 1) stack locals w) store arrives o) :
    p.Follows fuel (c.state n (v :: stack) locals w) store arrives o :=
  Program.follows_of_free (Program.free_pop hi rfl) (invocation?_eq_none hi (by simp)) h

theorem follows_jump {target : Nat} (hi : c.routine.code[n]? = some (.jump target))
    (h : p.Follows fuel (c.state target stack locals w) store arrives o) :
    p.Follows fuel (c.state n stack locals w) store arrives o :=
  Program.follows_of_free (Program.free_jump hi) (invocation?_eq_none hi (by simp)) h

variable {env : Env}

/-- Operands and the instruction on two numbers. -/
theorem follows_numbers {α : Type} (result : α → Value) {op : Number → Number → α} {a b : Value}
    (hi : p.invocation? (c.state n (b :: a :: stack) locals store.world) = none)
    (hfree : p.free (c.state n (b :: a :: stack) locals store.world) =
      match Effect.numbers (fun a b => result (op a b)) a b store.world with
      | (.ok v?, w) => .running (((c.state n (b :: a :: stack) locals store.world).goto (n + 1)
          (v?.toList ++ stack)).inWorld w)
      | (.error e, w) => .finished (.error e) w) :
    p.Follows fuel (c.state n (b :: a :: stack) locals store.world) store
      (fun x w t => x.2 = env ∧ t = c.state (n + 1) (result x.1 :: stack) locals w)
      (Eval.binary op a b env store) := by
  have hnumbers : Effect.numbers (fun a b => result (op a b)) a b =
      (fun x => some (result x)) <$> Effect.both op a b := by
    simp [Effect.numbers, Effect.both]
  exact (Eval.follows_lift hnumbers rfl hi hfree).imp fun _ _ _ h => h.2

theorem follows_arithmetic {op : Arithmetic} {a b : Value}
    (hi : c.routine.code[n]? = some (.arithmetic op)) :
    p.Follows fuel (c.state n (b :: a :: stack) locals store.world) store
      (fun x w t => x.2 = env ∧ t = c.state (n + 1) (.number x.1 :: stack) locals w)
      (Eval.binary op.apply a b env store) :=
  follows_numbers .number (invocation?_eq_none hi (by simp)) (Program.free_arithmetic hi rfl)

/-- What is chosen at a condition. -/
theorem follows_truth {target : Nat} (hi : c.routine.code[n]? = some (.jumpIfFalse target)) :
    p.Follows fuel (c.state n (v :: stack) locals store.world) store
      (fun x w t => x.2 = env ∧ t = c.state (if x.1 then n + 1 else target) stack locals w)
      (Eval.lift (Effect.truth v) env store) := by
  have hfree := Program.free_jumpIfFalse (p := p) (s := c.state n (v :: stack) locals store.world)
    hi rfl
  have hnone : p.invocation? (c.state n (v :: stack) locals store.world) = none :=
    invocation?_eq_none hi (by simp)
  cases v with
  | number x =>
    exact ⟨1, [], _, by rw [Program.walk_succ_running hfree, hnone]; rfl,
      (List.append_nil _).symm, rfl, rfl⟩
  | _ =>
    exact ⟨1, [], by rw [Program.walk_succ_finished hfree, hnone]; rfl, (List.append_nil _).symm⟩

theorem truth_ofBool (b : Bool) (w : World) : Effect.truth (.ofBool b) w = (.ok b, w) := by
  cases b <;> rfl

/-- A comparison, and what is chosen after it. -/
theorem follows_comparison {target : Nat} {op : Number → Number → Bool} {a b : Value}
    (hi : p.invocation? (c.state n (b :: a :: stack) locals store.world) = none)
    (hfree : p.free (c.state n (b :: a :: stack) locals store.world) =
      match Effect.numbers (fun a b => .ofBool (op a b)) a b store.world with
      | (.ok v?, w) => .running (((c.state n (b :: a :: stack) locals store.world).goto (n + 1)
          (v?.toList ++ stack)).inWorld w)
      | (.error e, w) => .finished (.error e) w)
    (hjump : c.routine.code[n + 1]? = some (.jumpIfFalse target)) :
    p.Follows fuel (c.state n (b :: a :: stack) locals store.world) store
      (fun x w t => x.2 = env ∧ t = c.state (if x.1 then n + 2 else target) stack locals w)
      (Eval.binary op a b env store) := by
  apply (follows_numbers .ofBool hi hfree).trans
  rintro ⟨x, env'⟩ after t ⟨henv, rfl⟩
  have hinstruction : (c.state (n + 1) (.ofBool x :: stack) locals after.world).instruction? =
    some (.jumpIfFalse target) := hjump
  have hnext := Program.free_jumpIfFalse (p := p) hinstruction rfl
  rw [truth_ofBool] at hnext
  exact Program.follows_of_free hnext (invocation?_eq_none hjump (by simp))
    (Program.follows_ok ⟨henv, rfl⟩)

theorem follows_native {op : NativeOp} {args : List Value}
    (hi : c.routine.code[n]? = some (.native op)) (hargs : args.length = op.arity) :
    p.Follows fuel (c.state n (args.reverse ++ stack) locals store.world) store
      (fun x w t => (x.1 = none ↔ op.returns = .void) ∧ x.2 = env ∧
        t = c.state (n + 1) (x.1.toList ++ stack) locals w)
      (Eval.lift (op.apply args) env store) := by
  have hnone : p.invocation? (c.state n (args.reverse ++ stack) locals store.world) = none :=
    invocation?_eq_none hi (by simp)
  refine (Eval.follows_lift (id_map _).symm rfl hnone (Program.free_native hi rfl hargs)).imp ?_
  rintro ⟨v?, env'⟩ w t ⟨hx, henv, rfl⟩
  refine ⟨?_, henv, rfl⟩
  have hpromises := (op.yields args hargs store.world).1 _ _ hx
  cases v? with
  | none => exact ⟨fun _ => hpromises, fun _ => rfl⟩
  | some v => exact ⟨fun h => (Option.some_ne_none v h).elim, fun h => absurd h hpromises.1⟩

theorem follows_toText (hi : c.routine.code[n]? = some .toText) :
    p.Follows fuel (c.state n (v :: stack) locals store.world) store
      (fun x w t => ∃ text, x.1 = some text ∧ t = c.state (n + 1) (text :: stack) locals w)
      (Eval.lift (Effect.toText v) env store) := by
  have hnone : p.invocation? (c.state n (v :: stack) locals store.world) = none :=
    invocation?_eq_none hi (by simp)
  refine (Eval.follows_lift (id_map _).symm rfl hnone (Program.free_toText hi rfl)).imp ?_
  rintro ⟨v?, env'⟩ w t ⟨hx, _, rfl⟩
  have hpromises := (Effect.yields_toText store.world).1 _ _ hx
  cases v? with
  | none => cases hpromises
  | some text => exact ⟨text, rfl, rfl⟩

theorem follows_host {i : Nat} {call : HostFunction} {args : List Value} {returns : Bool}
    (hi : c.routine.code[n]? = some (.invokeHost i args.length returns))
    (hcall : p.hosts[i]? = some call) :
    p.Follows fuel (c.state n (args.reverse ++ stack) locals store.world) store
      (fun a w t => (a.1 = none ↔ returns = false) ∧ a.2 = env ∧
        t = c.state (n + 1) (a.1.toList ++ stack) locals w)
      (Eval.host call args returns env store) := Eval.follows_host rfl hi rfl rfl hcall

/-- A native operation that has a value. -/
theorem follows_nativeValue {op : NativeOp} (args : List Value)
    (hi : c.routine.code[n]? = some (.native op)) (hargs : args.length = op.arity)
    (hvalued : op.returns ≠ .void) :
    p.Follows fuel (c.state n (args.reverse ++ stack) locals store.world) store
      (fun x w t => x.2 = env ∧ t = c.state (n + 1) (x.1 :: stack) locals w)
      (Eval.value (Eval.lift (op.apply args)) env store) := by
  apply (Eval.follows_value (follows_native hi hargs) _).imp
  · exact fun _ _ _ h => h.2
  · intro a w t h hnone
    exact hvalued (h.1.1 hnone)

end Site

end EventScript
