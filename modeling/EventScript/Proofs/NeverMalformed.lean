import EventScript.Proofs.Shape.Compiled

/-!
Accepted code is never malformed. Only the number of operands is tracked for that, so it holds of
trees that no source text has, too.
-/
namespace EventScript

namespace View

/-- Only the number of operands is tracked. -/
def counting : View := ⟨false, false⟩

theorem blind_counting : counting.Blind := ⟨rfl, rfl⟩

end View

/-- The entry point is one of the program's. -/
structure Callable.IsEntryOf (c : Callable) (p : Program) : Prop where
  program : c.program = p
  index : ∀ {i}, c.entry = .routine i → i < p.routines.size

namespace Program

variable {p : Program} {c : Callable}

theorem isEntryOf_of_callable? {name : String} (h : p.callable? name = some c) :
    c.IsEntryOf p := by
  unfold callable? at h
  split at h
  · cases h
    exact ⟨rfl, by rintro _ ⟨⟩⟩
  · obtain ⟨i, hi, rfl⟩ := Option.map_eq_some_iff.1 h
    refine ⟨rfl, ?_⟩
    rintro _ ⟨⟩
    exact (Array.findIdx?_eq_some_iff_getElem.1 hi).1

theorem isEntryOf_of_resourceCallable? {id : ResourceId}
    (h : p.resourceCallable? id = some c) : c.IsEntryOf p := by
  obtain ⟨i, hi, rfl⟩ := Option.map_eq_some_iff.1 h
  refine ⟨rfl, ?_⟩
  rintro _ ⟨⟩
  have := List.mem_of_find?_eq_some hi
  simpa using this

/-- The code of any schemas keeps to the number of operands. -/
theorem Lowers.keeps_counting {ctx : Context} {ds : List Definition} {pools : Pools}
    (h : p.Lowers ctx ds pools) (declared : ctx.registry.All Operation.WellDeclared) :
    p.Keeps ctx.registry View.counting (p.reliance ctx ds pools) := by
  refine h.keeps declared (by rintro ⟨⟩) (by rintro ⟨⟩) fun d _ => ?_
  refine ⟨.inl View.blind_counting, by rintro ⟨⟩, fun _ _ => ?_⟩
  refine Expr.respects_of_forall ?_ ?_ _
  · intro name hexact
    cases hexact
  · exact fun name l _ => View.kindOf_of_kinds rfl

/-- The program of any schemas without bound calls keeps to the number of operands. -/
theorem keeps_counting {registry : Registry} {limits : Limits} {ds : List Definition}
    (declared : registry.All Operation.WellDeclared)
    (unbound : ∀ d ∈ ds, d.schema.body.Unbound)
    (h : ofDefinitions registry limits ds = .ok p) :
    ∃ relies, p.Keeps registry View.counting relies := by
  obtain ⟨schemas, pools, _, hp, _⟩ := lowers_of_ofDefinitions declared.named unbound h
  exact ⟨_, hp.keeps_counting declared⟩

/-- No call of an accepted schema ends in a complaint about its code, whatever the limits, the
arguments and the callbacks of the host. -/
theorem invoke_ne_malformed {registry : Registry} {limits : Limits} {ds : List Definition}
    (hosts : registry.WithHosts Operation.NeverBlames)
    (unbound : ∀ d ∈ ds, d.schema.body.Unbound)
    (h : ofDefinitions registry limits ds = .ok p) (hc : c.IsEntryOf p) (fuel : Nat)
    (args : List Value) (world world' : World) (fault : CodeFault) :
    c.invoke fuel args world ≠ some (.error (.malformed fault), world') := by
  intro hinvoke
  obtain ⟨relies, hkeeps⟩ :=
    keeps_counting (Registry.wellDeclared_of_withHosts hosts) unbound h
  obtain ⟨program, entry⟩ := c
  obtain ⟨rfl, hindex⟩ := hc
  cases entry with
  | initializer => cases hinvoke
  | routine i =>
    have hr := Array.getElem?_eq_getElem (hindex rfl)
    have hnever : registry.All fun op => ¬op.Raises (.malformed fault) :=
      Registry.all_of_withHosts hosts (fun _ hop => Operation.not_raises_of_mem_standard hop)
        fun op _ _ hop => hop fault
    rcases hkeeps.accounted_of_invoke hr hinvoke hnever trivial with h | ⟨h, _⟩
    · cases h
    · cases h

end Program

theorem Program.echo_invoke_ne_malformed : Registry.standard.WithHosts Operation.NeverBlames ∧
    Definition.echo.schema.body.Unbound ∧
    ofDefinitions Registry.standard {} [.echo] = .ok echo ∧
    Callable.IsEntryOf ⟨echo, .routine 0⟩ echo ∧
    Callable.invoke ⟨echo, .routine 0⟩ 2 [.number .one] World.blank ≠
      some (.error (.malformed .stackUnderflow), World.blank) := by
  have unbound : ∀ d ∈ [Definition.echo], d.schema.body.Unbound := by
    intro d hd
    cases List.mem_singleton.1 hd
    exact ⟨trivial, trivial⟩
  have entry : Callable.IsEntryOf ⟨echo, .routine 0⟩ echo := by
    refine ⟨rfl, ?_⟩
    rintro _ ⟨⟩
    decide
  exact ⟨.standard, unbound _ List.mem_cons_self, ofDefinitions_echo _, entry,
    invoke_ne_malformed .standard unbound (ofDefinitions_echo _) entry 2 _ _ _ _⟩

end EventScript
