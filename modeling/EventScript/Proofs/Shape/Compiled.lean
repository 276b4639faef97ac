import EventScript.Proofs.Shape.Run

/-!
Compiled programs keep to shapes: every routine comes from a schema, and what its code refers to is
what the program holds.
-/
namespace EventScript

/-- The code of a program's routine relies on the scope of the schema that it comes from. -/
def Program.reliance (p : Program) (ctx : Context) (ds : List Definition) (pools : Pools) :
    Routine.Reliance := fun r E marks =>
  r ∈ p.routines ∧ ∃ d ∈ ds, ∃ before s', d.lower ctx { pools := before } = .ok (r, s') ∧
    d.Lowers ctx before r marks s' ∧ before.Sound ctx.registry ∧ s'.pools.Extends pools ∧
    E = .of ctx pools s'.scope

/-- What a schema has to be like for its code to keep to shapes. -/
structure Definition.Suits (V : View) (ctx : Context) (pools : Pools) (d : Definition) : Prop where
  placed : V.Blind ∨ d.schema.body.IsStatement
  plain : V.kinds = true → ∀ p ∈ d.schema.params, p.type.Plain
  respects : ∀ {before r marks s'}, d.lower ctx { pools := before } = .ok (r, s') →
    d.Lowers ctx before r marks s' → d.schema.body.Respects
      ((Setting.of ctx pools s'.scope).Readable V) ((Setting.of ctx pools s'.scope).Loopable V)

namespace Program.Lowers

variable {ctx : Context} {ds : List Definition} {pools : Pools} {p : Program} {V : View}

theorem operation_of {i : Nat} {op : Operation} {scope : Scope} (h : p.Lowers ctx ds pools)
    (hop : (Setting.of ctx pools scope).operation? i = some op) : ∃ name call,
      ctx.registry.find? name = some op ∧ op.action = .host call ∧ p.hosts[i]? = some call := by
  obtain ⟨⟨name, call⟩, hentry, hfind⟩ := Option.bind_eq_some_iff.1 hop
  obtain ⟨op', hfind', haction⟩ := h.sound hentry
  rw [hfind] at hfind'
  cases hfind'
  refine ⟨name, call, hfind, haction, ?_⟩
  rw [h.hosts, Array.getElem?_map, hentry]
  rfl

theorem signature_of {i : Nat} {sig : Signature} {scope : Scope} (h : p.Lowers ctx ds pools)
    (hsig : (Setting.of ctx pools scope).signature? i = some sig) : ∃ callee,
      p.routines[i]? = some callee ∧ callee.params = sig.params ∧ callee.returns = sig.returns := by
  obtain ⟨⟨name, _⟩, hentry, rfl⟩ := Option.map_eq_some_iff.1 hsig
  obtain ⟨d, hd, _, rfl⟩ := h.schemas.1 hentry
  obtain ⟨before, r, marks, s', hr, _, ⟨_⟩, _⟩ := h.routines hd
  exact ⟨_, hr, rfl, rfl⟩

/-- The scope of a schema has types that are what their names say. -/
theorem scope_plain {d : Definition} {before : Pools} {r : Routine} {marks : List Nat}
    {s' : Lowering} (named : ctx.Named) (plain : ctx.Plain)
    (params : ∀ p ∈ d.schema.params, p.type.Plain) (h : d.Lowers ctx before r marks s') :
    s'.scope.Plain := by
  obtain ⟨_, distinct, lowered, _⟩ := h
  refine (lowered.plain named plain ?_ ?_).2
  · intro name l hl
    obtain ⟨p, hp, _, htype⟩ := Scope.getElem?_of_find?_ofParams distinct hl
    rw [← htype]
    exact params p (List.mem_of_getElem? hp)
  · rintro _ _ ⟨⟩
    trivial

/-- A compiled program keeps to shapes. -/
theorem keeps (h : p.Lowers ctx ds pools) (declared : ctx.registry.All Operation.WellDeclared)
    (answers : V.kinds = true → ctx.registry.All Operation.KeepsKind)
    (plain : V.kinds = true → ctx.Plain) (suits : ∀ d ∈ ds, d.Suits V ctx pools) :
    p.Keeps ctx.registry V (p.reliance ctx ds pools) where
  routine := by
    intro i r hr
    have hi : i < ds.length := by
      rw [← h.size]
      exact (Array.getElem?_eq_some_iff.1 hr).1
    obtain ⟨before, r', marks, s', hr', hlower, hlowers, hsound, hext⟩ :=
      h.routines (List.getElem?_eq_getElem hi)
    rw [hr] at hr'
    cases hr'
    exact ⟨_, marks, Array.mem_of_getElem? hr, ds[i], List.getElem_mem hi, before, s', hlower,
      hlowers, hsound, hext, rfl⟩
  checks := by
    rintro r _ marks ⟨_, d, hd, before, s', hlower, hlowers, hsound, hext, rfl⟩
    have hsuits := suits d hd
    refine hlowers.checks h.named declared ?_ hsound hext hsuits.placed
      (hsuits.respects hlower hlowers)
    exact fun hkinds => ⟨plain hkinds,
      scope_plain h.named (plain hkinds) (hsuits.plain hkinds) hlowers⟩
  constants := by
    rintro r _ marks i l ⟨_, d, hd, before, s', _, _, _, _, rfl⟩ hl
    rw [h.constants]
    exact hl
  operations := by
    rintro r _ marks i op ⟨_, d, hd, before, s', _, _, _, _, rfl⟩ hop
    exact h.operation_of hop
  signatures := by
    rintro r _ marks i sig ⟨_, d, hd, before, s', _, _, _, _, rfl⟩ hsig
    exact h.signature_of hsig
  answers := answers

end Program.Lowers

end EventScript
