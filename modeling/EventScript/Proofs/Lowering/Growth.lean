import EventScript.Proofs.Binding.Filling
import EventScript.Proofs.Lowering

/-!
What lowering keeps. Pools and scopes only grow, so a position or a slot that code names stays good
for the rest of the schema and, in the pools, of the program. Calls are bound to what the context
offers, and every pooled callback is that of a registered operation.
-/
namespace EventScript

/-- Every operation is registered under its own name. -/
def Registry.Named (registry : Registry) : Prop :=
  ∀ {name op}, registry.find? name = some op → op.name = name

/-- Operations and signatures stand under their own names. -/
structure Context.Named (ctx : Context) : Prop where
  operation : ctx.registry.Named
  schema : ∀ {name sig}, ctx.schemas.find? name = some sig → sig.name = name

/-- Calls are bound to what the context offers. -/
def Target.Known (ctx : Context) : Target → Prop
  | .operation op => ctx.registry.find? op.name = some op
  | .schema name params returns => ∃ sig, ctx.schemas.find? name = some sig ∧
      params = sig.params.map (·.2) ∧ returns = sig.returns

namespace Context

variable {ctx : Context} {name alternate : String} {c : Callee}

/-- What a context offers, it has under its own name. -/
theorem known_of_callee? (h : ctx.Named) (hc : ctx.callee? name alternate = some c) :
    c.target.Known ctx := by
  simp only [callee?, Option.orElse_eq_orElse, Option.orElse_eq_or, Option.or_eq_some_iff,
    Option.map_eq_some_iff] at hc
  rcases hc with ⟨op, hop, rfl⟩ | ⟨_, sig, hsig, rfl⟩
  · change ctx.registry.find? op.name = some op
    rcases hop with hop | ⟨_, hop⟩ <;> rwa [h.operation hop]
  · rcases hsig with hsig | ⟨_, hsig⟩ <;> exact ⟨sig, (h.schema hsig).symm ▸ hsig, rfl, rfl⟩

end Context

namespace Expr

variable {ctx : Context} {scope : Scope} {span : Span} {name : String} {target : Target}

/-- What a call is bound to is offered by the context. -/
theorem known_of_targetOf (h : ctx.Named) {args : List Expr}
    (ht : targetOf ctx scope span name args none = .ok target) : target.Known ctx := by
  obtain ⟨_, c, _, hc, _, rfl⟩ := bindCall_eq_ok_iff.1 ht
  exact Context.known_of_callee? h hc

end Expr

/-- A later state of the pools: positions keep what they hold. -/
structure Pools.Extends (p p' : Pools) : Prop where
  literals : ∀ {i : Nat} {e}, p.literals.entries[i]? = some e → p'.literals.entries[i]? = some e
  hosts : ∀ {i : Nat} {e}, p.hosts.entries[i]? = some e → p'.hosts.entries[i]? = some e

/-- Every pooled callback is that of the operation of its name. -/
def Pools.Sound (registry : Registry) (p : Pools) : Prop :=
  ∀ {i : Nat} {name call}, p.hosts.entries[i]? = some (name, call) →
    ∃ op, registry.find? name = some op ∧ op.action = .host call

namespace Pools

theorem Extends.refl (p : Pools) : p.Extends p := ⟨id, id⟩

theorem Extends.trans {p₁ p₂ p₃ : Pools} (h : p₁.Extends p₂) (h' : p₂.Extends p₃) :
    p₁.Extends p₃ :=
  ⟨fun he => h'.literals (h.literals he), fun he => h'.hosts (h.hosts he)⟩

theorem sound_empty (registry : Registry) : ({} : Pools).Sound registry := by
  intro i name call h
  simp at h

end Pools

/-- A key that is not there yet comes after all others. -/
theorem Table.entry_insert_of_entry {κ α : Type} [BEq κ] [Hashable κ] [LawfulBEq κ]
    {t : Table κ α} {k : κ} {a : α} {i : Nat} {e : κ × α} (hk : t.find? k = none)
    (h : t.entries[i]? = some e) : (t.insert k a).entries[i]? = some e := by
  obtain ⟨l, b⟩ := e
  rw [Table.entry_insert_of_ne]
  · exact h
  · rintro rfl
    rw [Table.find?_of_entry h] at hk
    cases hk

/-- Names have slots of their own, and pooled callbacks are those of their operations. -/
structure Lowering.Sound (ctx : Context) (s : Lowering) : Prop where
  names : s.scope.Sound
  hosts : s.pools.Sound ctx.registry

/-- What any part of a lowering does to its state. -/
structure Lowering.Grows (ctx : Context) (s s' : Lowering) : Prop where
  scope : s.scope.Extends s'.scope
  pools : s.pools.Extends s'.pools
  sound : s.Sound ctx → s'.Sound ctx

namespace Lowering

variable {ctx : Context} {s s' s₁ s₂ s₃ : Lowering} {scope : Scope} {span : Span} {i slot : Nat}

theorem Grows.refl (ctx : Context) (s : Lowering) : Grows ctx s s := ⟨.refl _, .refl _, id⟩

theorem Grows.trans (h : Grows ctx s₁ s₂) (h' : Grows ctx s₂ s₃) : Grows ctx s₁ s₃ :=
  ⟨h.scope.trans h'.scope, h.pools.trans h'.pools, fun hs => h'.sound (h.sound hs)⟩

theorem grows_of_temporary? (h : s.scope.temporary? = some (slot, scope)) :
    Grows ctx s { s with scope } := by
  obtain ⟨_, _, rfl⟩ := Scope.temporary?_eq_some_iff.1 h
  exact ⟨Scope.extends_skip _, .refl _, fun hs => ⟨Scope.sound_skip hs.names, hs.hosts⟩⟩

theorem grows_of_declare? {name : String} {type : StaticType} {l : Local}
    (h : s.scope.declare? name type = some (l, scope)) : Grows ctx s { s with scope } :=
  ⟨Scope.extends_of_declare? h, .refl _, fun hs => ⟨Scope.sound_of_declare? hs.names h, hs.hosts⟩⟩

private theorem of_literal {l : Literal} (h : Lower.literal l span s = .ok (i, s')) :
    s.pools.literals.position? l = some i ∧ s' = s ∨
      s.pools.literals.find? l = none ∧ i = s.pools.literals.entries.size ∧
        s' = { s with pools.literals := s.pools.literals.insert l () } := by
  obtain ⟨⟨literals, hosts⟩, scope⟩ := s
  obtain ⟨⟨j, pools⟩, hp, heq⟩ := map_eq_ok.1 h
  cases heq
  unfold Pools.literal at hp
  split at hp
  · rename_i hi
    cases hp
    exact .inl ⟨hi, rfl⟩
  · rename_i hi
    simp only at hp
    split at hp
    · cases hp
      exact .inr ⟨Table.position?_eq_none_iff.1 hi, rfl, rfl⟩
    · cases hp

private theorem of_host {name : String} {call : HostFunction}
    (h : Lower.host name call span s = .ok (i, s')) :
    s.pools.hosts.position? name = some i ∧ s' = s ∨
      s.pools.hosts.find? name = none ∧ i = s.pools.hosts.entries.size ∧
        s' = { s with pools.hosts := s.pools.hosts.insert name call } := by
  obtain ⟨⟨literals, hosts⟩, scope⟩ := s
  obtain ⟨⟨j, pools⟩, hp, heq⟩ := map_eq_ok.1 h
  cases heq
  unfold Pools.host at hp
  split at hp
  · rename_i hi
    cases hp
    exact .inl ⟨hi, rfl⟩
  · rename_i hi
    simp only at hp
    split at hp
    · cases hp
      exact .inr ⟨Table.position?_eq_none_iff.1 hi, rfl, rfl⟩
    · cases hp

/-- A literal stands at its position afterwards. -/
theorem entry_of_literal {l : Literal} (h : Lower.literal l span s = .ok (i, s')) :
    s'.pools.literals.entries[i]? = some (l, ()) := by
  rcases of_literal h with ⟨hi, rfl⟩ | ⟨hi, rfl, rfl⟩
  · obtain ⟨_, ha⟩ := Table.position?_eq_some_iff.1 hi
    exact ha
  · simp [Table.entries_insert_of_find?_none hi]

theorem scope_of_literal {l : Literal} (h : Lower.literal l span s = .ok (i, s')) :
    s'.scope = s.scope := by
  rcases of_literal h with ⟨_, rfl⟩ | ⟨_, _, rfl⟩ <;> rfl

/-- No other literal comes into the pool. -/
theorem mem_literals_of_literal {l : Literal} (h : Lower.literal l span s = .ok (i, s')) :
    ∀ e ∈ s'.pools.literals.entries, e ∈ s.pools.literals.entries ∨ e.1 = l := by
  rcases of_literal h with ⟨_, rfl⟩ | ⟨hl, _, rfl⟩
  · exact fun e he => .inl he
  · intro e he
    rw [Table.entries_insert_of_find?_none hl] at he
    exact (Array.mem_push.1 he).imp_right fun heq => congrArg Prod.fst heq

theorem grows_of_literal {l : Literal} (h : Lower.literal l span s = .ok (i, s')) :
    Grows ctx s s' := by
  rcases of_literal h with ⟨_, rfl⟩ | ⟨hl, _, rfl⟩
  · exact .refl ctx _
  · exact ⟨.refl _, ⟨Table.entry_insert_of_entry hl, id⟩, fun hs => ⟨hs.names, hs.hosts⟩⟩

/-- The callback of an operation stands at its position afterwards. -/
theorem entry_of_host {op : Operation} {call : HostFunction}
    (hop : ctx.registry.find? op.name = some op) (haction : op.action = .host call)
    (hs : s.Sound ctx) (h : Lower.host op.name call span s = .ok (i, s')) :
    s'.pools.hosts.entries[i]? = some (op.name, call) := by
  rcases of_host h with ⟨hi, rfl⟩ | ⟨hi, rfl, rfl⟩
  · obtain ⟨call', hcall⟩ := Table.position?_eq_some_iff.1 hi
    obtain ⟨op', hop', haction'⟩ := hs.hosts hcall
    rw [hop] at hop'
    cases hop'
    rw [haction] at haction'
    cases haction'
    exact hcall
  · simp [Table.entries_insert_of_find?_none hi]

theorem grows_of_host {op : Operation} {call : HostFunction}
    (hop : ctx.registry.find? op.name = some op) (haction : op.action = .host call)
    (h : Lower.host op.name call span s = .ok (i, s')) : Grows ctx s s' := by
  rcases of_host h with ⟨_, rfl⟩ | ⟨hname, _, rfl⟩
  · exact .refl ctx _
  · refine ⟨.refl _, ⟨id, Table.entry_insert_of_entry hname⟩, fun hs => ⟨hs.names, ?_⟩⟩
    intro j name c hc
    by_cases hn : name = op.name
    · subst hn
      have hfind := Table.find?_of_entry hc
      rw [Table.find?_insert_self] at hfind
      cases hfind
      exact ⟨op, hop, haction⟩
    · rw [Table.entry_insert_of_ne hn] at hc
      exact hs.hosts hc

/-- The instruction that calls an operation. -/
theorem of_lower_operation {op : Operation} {argc : Nat} {instr : Instruction}
    (h : (Target.operation op).lower ctx span argc s = .ok (instr, s')) :
    (∃ native, op.action = .native native ∧ instr = .native native ∧ s' = s) ∨
      ∃ call i, op.action = .host call ∧ instr = .invokeHost i argc (op.returns ≠ .void) ∧
        Lower.host op.name call span s = .ok (i, s') := by
  simp only [Target.lower, Lower.bind_eq_ok, Lower.ite_eq_ok, Lower.lift_eq_ok, refuse_eq_ok,
    false_and, and_false, exists_false, false_or] at h
  obtain ⟨_, h⟩ := h
  cases ha : op.action with
  | native native =>
    simp only [ha, Lower.pure_eq_ok] at h
    exact .inl ⟨native, rfl, h⟩
  | host call =>
    simp only [ha, Lower.bind_eq_ok, Lower.pure_eq_ok] at h
    obtain ⟨i, _, hi, rfl, rfl⟩ := h
    exact .inr ⟨call, i, rfl, rfl, hi⟩

/-- The instruction that calls a schema. -/
theorem of_lower_schema {name : String} {params : List StaticType} {returns : StaticType}
    {argc : Nat} {instr : Instruction}
    (h : (Target.schema name params returns).lower ctx span argc s = .ok (instr, s')) :
    ∃ i, ctx.schemas.position? name = some i ∧ instr = .call i argc (returns ≠ .void) ∧ s' = s := by
  simp only [Target.lower] at h
  cases hp : ctx.schemas.position? name with
  | none => simp only [hp, Lower.lift_eq_ok, refuse_eq_ok, false_and] at h
  | some i =>
    simp only [hp, Lower.bind_eq_ok, Lower.ite_eq_ok, Lower.lift_eq_ok, Lower.pure_eq_ok,
      refuse_eq_ok, false_and, and_false, exists_false, false_or] at h
    exact ⟨i, rfl, h.2⟩

theorem grows_of_target {target : Target} (known : target.Known ctx) {argc : Nat}
    {instr : Instruction} (h : target.lower ctx span argc s = .ok (instr, s')) :
    Grows ctx s s' := by
  cases target with
  | operation op =>
    rcases of_lower_operation h with ⟨_, _, _, rfl⟩ | ⟨call, i, haction, _, hi⟩
    · exact .refl ctx _
    · exact grows_of_host known haction hi
  | schema name params returns =>
    obtain ⟨_, _, _, rfl⟩ := of_lower_schema h
    exact .refl ctx _

theorem scope_of_target {target : Target} {argc : Nat} {instr : Instruction}
    (h : target.lower ctx span argc s = .ok (instr, s')) : s'.scope = s.scope := by
  cases target with
  | operation op =>
    rcases of_lower_operation h with ⟨_, _, _, rfl⟩ | ⟨call, i, _, _, hi⟩
    · rfl
    · rcases of_host hi with ⟨_, rfl⟩ | ⟨_, _, rfl⟩ <;> rfl
  | schema name params returns =>
    obtain ⟨_, _, _, rfl⟩ := of_lower_schema h
    rfl

theorem literals_of_target {target : Target} {argc : Nat} {instr : Instruction}
    (h : target.lower ctx span argc s = .ok (instr, s')) :
    s'.pools.literals = s.pools.literals := by
  cases target with
  | operation op =>
    rcases of_lower_operation h with ⟨_, _, _, rfl⟩ | ⟨call, i, _, _, hi⟩
    · rfl
    · rcases of_host hi with ⟨_, rfl⟩ | ⟨_, _, rfl⟩ <;> rfl
  | schema name params returns =>
    obtain ⟨_, _, _, rfl⟩ := of_lower_schema h
    rfl

end Lowering

/-- A lowered phrase only adds to pools and scope. -/
theorem Lowered.grows {ctx : Context} (named : ctx.Named) {start : Nat} {phrase : Phrase}
    {s s' : Lowering} {type : StaticType} {code : Code} {marks : List Nat}
    (h : Lowered ctx start phrase s type code marks s') : s.Grows ctx s' := by
  induction h with
  | literal _ place => exact Lowering.grows_of_literal place
  | read | noStatements | noArguments => exact .refl ctx _
  | write _ place ih => exact ih.trans (Lowering.grows_of_declare? place)
  | arithmetic _ _ ih₁ ih₂ | branch _ _ ih₁ ih₂ | statements _ _ ih₁ ih₂ | arguments _ _ ih₁ ih₂ =>
    exact ih₁.trans ih₂
  | branchElse _ _ _ ih₁ ih₂ ih₃ => exact ih₁.trans (ih₂.trans ih₃)
  | loop _ slot unit _ ih₁ ih₂ =>
    exact ih₁.trans ((Lowering.grows_of_temporary? slot).trans
      ((Lowering.grows_of_literal unit).trans ih₂))
  | each _ itemsSlot indexSlot itemSlot zero unit _ ih₁ ih₂ =>
    refine ih₁.trans ((Lowering.grows_of_temporary? itemsSlot).trans ?_)
    refine (Lowering.grows_of_temporary? (s := ⟨_, _⟩) indexSlot).trans ?_
    refine (Lowering.grows_of_declare? (s := ⟨_, _⟩) itemSlot).trans ?_
    exact (Lowering.grows_of_literal zero).trans ((Lowering.grows_of_literal unit).trans ih₂)
  | block _ ih | operand _ _ _ ih | body _ ih => exact ih
  | call bound _ made ih =>
    exact ih.trans (Lowering.grows_of_target (Expr.known_of_targetOf named bound) made)

end EventScript
