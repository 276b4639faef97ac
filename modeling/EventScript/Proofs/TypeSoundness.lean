import EventScript.Proofs.Shape.Compiled
import EventScript.Proofs.Submission

/-!
Type soundness. In every run of a corpus variables hold values of their types in the compiler's
scope, callbacks get what their operations declare, and a schema answers what it promises. Elements
of a list are stored in a loop variable as they are, so the type of such a variable must not ask for
a kind; nor may an operation of the host borrow the name of a keyword for its result.
-/
namespace EventScript

namespace View

/-- Kinds are tracked, and operands may lie below those of a shape. -/
def kinded : View := ⟨true, false⟩

theorem describes_of_agrees {type : StaticType} {v : Value}
    (h : v.Agrees (kinded.kindOf type)) : type.Describes v :=
  fun hkind => h _ hkind

end View

/-- The types of the schema's loop variables in the compiler's scope ask for no kind. -/
def Definition.LoopsFreely (ctx : Context) (d : Definition) : Prop :=
  ∀ before r s', d.lower ctx { pools := before } = .ok (r, s') →
    d.schema.body.Respects (fun _ => True) fun name =>
      ∀ l, s'.scope.find? name = some l → l.type.runtimeKind? = none

/-- The variables of a call that have been assigned hold values of their types in the compiler's
scope. -/
def Frame.IsTyped (ctx : Context) (ds : List Definition) (frame : Frame) : Prop :=
  ∃ d ∈ ds, ∃ before s', d.lower ctx { pools := before } = .ok (frame.routine, s') ∧
    ∀ name l v, s'.scope.find? name = some l → frame.locals[l.slot]? = some (some v) →
      l.type.Describes v

/-- The callback keeps to what its operation declares, and its result has a type of its own. -/
structure Operation.IsHonest (op : Operation) : Prop where
  keepsKind : op.KeepsKind
  plain : op.returns.Plain

namespace Submission

variable {registry : Registry} {limits : Limits} {source : Submission} {ds : List Definition}
  {schemas : Table String Signature} {p : Program}

theorem plain_of_lowers {pools : Pools} (honest : registry.All Operation.IsHonest)
    (sources : ∀ d ∈ ds, d.schema.IsSource) (h : p.Lowers ⟨registry, schemas⟩ ds pools) :
    Context.Plain ⟨registry, schemas⟩ where
  operation := fun hop => (honest.of hop).plain
  schema := by
    intro name sig hsig
    obtain ⟨i, hi⟩ := Table.find?_eq_some_iff.1 hsig
    obtain ⟨d, hd, _, rfl⟩ := h.schemas.1 hi
    exact StaticType.plain_of_mem_keywords (sources d (List.mem_of_getElem? hd)).returns

/-- Programs of source texts keep to kinds. -/
theorem keeps_kinded {pools : Pools} (declared : registry.All Operation.WellDeclared)
    (honest : registry.All Operation.IsHonest) (sources : ∀ d ∈ ds, d.schema.IsSource)
    (loops : ∀ d ∈ ds, d.LoopsFreely ⟨registry, schemas⟩)
    (h : p.Lowers ⟨registry, schemas⟩ ds pools) :
    p.Keeps registry View.kinded (p.reliance ⟨registry, schemas⟩ ds pools) := by
  refine h.keeps declared (fun _ => ?_) (fun _ => plain_of_lowers honest sources h) fun d hd => ?_
  · exact fun name op hop => ⟨(honest name op hop).1, (honest name op hop).2.keepsKind⟩
  · refine ⟨.inr (sources d hd).body, fun _ q hq =>
      StaticType.plain_of_mem_keywords ((sources d hd).params q hq), fun hlower _ => ?_⟩
    refine Expr.Respects.imp ?_ ?_ _ (loops d hd _ _ _ hlower)
    · intro name _ hexact
      cases hexact
    · intro name hname l hl
      rw [View.kindOf, hname l hl, View.seen_none]

/-- A call that stands where its shape says has typed variables. -/
theorem isTyped_of_stands {pools : Pools} {frame : Frame} {awaited : Shape}
    (named : Context.Named ⟨registry, schemas⟩)
    (h : frame.Stands View.kinded (p.reliance ⟨registry, schemas⟩ ds pools) awaited) :
    frame.IsTyped ⟨registry, schemas⟩ ds := by
  obtain ⟨_, marks, σ, ⟨_, d, hd, before, s', hlower, hlowers, hsound, _, rfl⟩, _, _, hlocals⟩ := h
  refine ⟨d, hd, before, s', hlower, ?_⟩
  intro name l v hl hv
  exact View.describes_of_agrees
    (hlocals.agrees (Scope.typeAt_of_find? (hlowers.names named hsound) hl) hv)

/-- In every run of what source texts are compiled to, variables hold values of their types,
callbacks get what is declared, and a schema answers what it promises. -/
theorem typeSound (hosts : registry.WithHosts Operation.IsHonest)
    (hds : source.definitions = .ok ds)
    (hschemas : Definition.signatures Table.empty ds = .ok schemas)
    (loops : ∀ d ∈ ds, d.LoopsFreely ⟨registry, schemas⟩)
    (h : source.compile registry limits = .ok p) {i : Nat} {r : Routine}
    (hr : p.routines[i]? = some r) (args : List Value) (world : World) :
    (∀ s, Callable.Visits ⟨p, .routine i⟩ args world s →
      (∀ frame ∈ s.frames, frame.IsTyped ⟨registry, schemas⟩ ds) ∧
      ∀ call passed, p.invocation? s = some (call, passed) → ∃ name op,
        registry.find? name = some op ∧ op.action = .host call ∧
          List.Forall₂ (fun field v => field.type.Describes v) op.fields passed) ∧
    ∀ fuel result world', Callable.invoke ⟨p, .routine i⟩ fuel args world =
      some (.ok result, world') → r.returns.Promises result := by
  have sources := isSource_of_definitions hds
  have declared := Registry.wellDeclared_of_withHosts hosts
  have honest : registry.All Operation.IsHonest := by
    refine Registry.all_of_withHosts hosts ?_ fun _ _ _ hop => hop
    exact fun op hop =>
      ⟨Operation.keepsKind_of_mem_standard hop, Operation.plain_of_mem_standard op hop⟩
  rw [compile_eq, hds] at h
  obtain ⟨schemas', pools, hschemas', hp, _⟩ := Program.lowers_of_ofDefinitions declared.named
    (fun d hd => (sources d hd).body.unbound) h
  rw [hschemas] at hschemas'
  cases hschemas'
  have hkeeps := keeps_kinded declared honest sources loops hp
  constructor
  · intro s hs
    obtain ⟨type, hstands⟩ := Program.Keeps.stands_of_visits hkeeps hs
    constructor
    · intro frame hframe
      obtain ⟨awaited, h⟩ := Program.Keeps.stands_of_mem_frames hstands hframe
      exact isTyped_of_stands hp.named h
    · intro call passed hcall
      obtain ⟨name, op, hfind, haction, hpassed⟩ :=
        hkeeps.declared_of_invocation hstands hcall
      exact ⟨name, op, hfind, haction, hpassed.imp fun _ _ => View.describes_of_agrees⟩
  · intro fuel result world' hinvoke
    have hresult := hkeeps.accounted_of_invoke hr hinvoke
    cases result with
    | none => exact hresult
    | some v => exact ⟨hresult.1, View.describes_of_agrees hresult.2⟩

theorem loopsFreely_echo : ∀ d ∈ [Definition.echo], d.LoopsFreely (.echo Registry.standard) := by
  intro d hd
  cases List.mem_singleton.1 hd
  exact fun _ _ _ _ => ⟨trivial, trivial⟩

theorem typeSound_echo : Registry.standard.WithHosts Operation.IsHonest ∧
    echo.definitions = .ok [.echo] ∧ echo.compile Registry.standard {} = .ok .echo ∧
    Definition.echo.LoopsFreely (.echo Registry.standard) ∧
    (State.start Definition.echoRoutine [.number .one] .blank).frame.IsTyped
      (.echo Registry.standard) [.echo] ∧
    Callable.invoke ⟨.echo, .routine 0⟩ 2 [.number .one] .blank =
      some (.ok (some (.number .one)), .blank) ∧
    StaticType.number.Promises (some (.number .one)) := by
  have hinvoke : Callable.invoke ⟨.echo, .routine 0⟩ 2 [.number .one] .blank =
    some (.ok (some (.number .one)), .blank) := rfl
  obtain ⟨visits, answers⟩ := typeSound .standard definitions_echo
    (Definition.signatures_echo Registry.standard) loopsFreely_echo
    (compile_echo _) (i := 0) rfl [.number .one] .blank
  have start : Callable.Visits ⟨.echo, .routine 0⟩ [.number .one] .blank
      (.start Definition.echoRoutine [.number .one] .blank) := .intro rfl rfl rfl .refl
  exact ⟨.standard, definitions_echo, compile_echo _, loopsFreely_echo _ List.mem_cons_self,
    (visits _ start).1 _ List.mem_cons_self, hinvoke, answers 2 _ _ hinvoke⟩

end Submission

end EventScript
