import EventScript.Operation.Standard
import EventScript.Proofs.Lowering.Growth
import EventScript.Proofs.Machine.Effect

/-!
Registries that begin with the standard operations, or with none, and get callbacks of the host.
What is true of the operations at the beginning and of every callback is true of the whole registry;
the standard operations are declared as the machine carries them out.
-/
namespace EventScript

/-- A type whose name is no keyword unless it is the type of the keyword. -/
def StaticType.Plain : StaticType → Prop
  | .unresolved word => ofKeyword? word = none
  | _ => True

instance : DecidablePred StaticType.Plain
  | .unresolved word => inferInstanceAs (Decidable (StaticType.ofKeyword? word = none))
  | .any | .void | .number | .bool | .string | .vec3 | .text | .list | .dict | .entity =>
    .isTrue trivial

theorem StaticType.plain_of_mem_keywords {t : StaticType} (h : t ∈ keywords) : t.Plain := by
  revert t
  decide

/-- With this many fields and this result a native action does what is declared. -/
def Action.Keeps (fields : Nat) (returns : StaticType) : Action → Prop
  | .native op => fields = op.arity ∧ (returns = .void ↔ op.returns = .void) ∧
      returns.runtimeKind? = op.returns.runtimeKind?
  | .host _ => True

instance (fields : Nat) (returns : StaticType) : DecidablePred (Action.Keeps fields returns)
  | .native op => inferInstanceAs (Decidable (fields = op.arity ∧
      (returns = .void ↔ op.returns = .void) ∧ returns.runtimeKind? = op.returns.runtimeKind?))
  | .host _ => .isTrue trivial

def Action.isNative : Action → Bool
  | .native _ => true
  | .host _ => false

namespace Operation

/-- A native operation has the fields and the result that it has when it is carried out. -/
def WellDeclared (op : Operation) : Prop := op.action.Keeps op.fields.length op.returns

instance : DecidablePred WellDeclared := fun op =>
  inferInstanceAs (Decidable (op.action.Keeps op.fields.length op.returns))

/-- A callback of the host answers values of the declared kind. -/
def KeepsKind (op : Operation) : Prop :=
  ∀ {call args heap v heap'}, op.action = .host call → call args heap = (.ok v, heap') →
    op.returns.Describes v

/-- The callback of the operation has the error as an answer. -/
def Raises (op : Operation) (e : RuntimeError) : Prop :=
  ∃ call args heap heap', op.action = .host call ∧ call args heap = (.error e, heap')

/-- A callback of the host does not blame the code. -/
def NeverBlames (op : Operation) : Prop := ∀ f, ¬op.Raises (.malformed f)

theorem wellDeclared_of_mem_standard : ∀ op ∈ standard, op.WellDeclared := by decide

theorem plain_of_mem_standard : ∀ op ∈ standard, op.returns.Plain := by decide

theorem isNative_of_mem_standard : ∀ op ∈ standard, op.action.isNative = true := by decide

theorem keepsKind_of_mem_standard {op : Operation} (h : op ∈ standard) : op.KeepsKind := by
  intro call args heap v heap' haction
  have hnative := isNative_of_mem_standard op h
  rw [haction] at hnative
  cases hnative

theorem not_raises_of_mem_standard {op : Operation} {e : RuntimeError} (h : op ∈ standard) :
    ¬op.Raises e := by
  rintro ⟨call, _, _, _, haction, _⟩
  have hnative := isNative_of_mem_standard op h
  rw [haction] at hnative
  cases hnative

end Operation

namespace Registry

/-- Every operation is registered under its own name and has the property. -/
def All (P : Operation → Prop) (r : Registry) : Prop :=
  ∀ name op, r.find? name = some op → op.name = name ∧ P op

/-- The registry began with the standard operations or with none, and then got callbacks. -/
inductive WithHosts (allowed : Operation → Prop) : Registry → Prop where
  | standard : WithHosts allowed Registry.standard
  | empty : WithHosts allowed Registry.empty
  | host {r} (name : String) (fields : List Field) (returns : StaticType) (call : HostFunction)
      (h : WithHosts allowed r)
      (hallowed : allowed ⟨name, fields, returns, .host call, "host", ""⟩) :
      WithHosts allowed (r.registerHost name fields returns call)

variable {P Q : Operation → Prop} {r : Registry} {op : Operation}

theorem All.named (h : r.All P) : r.Named := fun hop => (h _ _ hop).1

theorem All.of {name : String} (h : r.All P) (hop : r.find? name = some op) : P op := (h _ _ hop).2

theorem all_empty : empty.All P := by
  intro name op h
  simp [empty] at h

theorem all_register (h : r.All P) (hop : P op) : (r.register op).All P := by
  intro name o ho
  by_cases hname : name = op.name
  · subst hname
    rw [register, Table.find?_insert_self] at ho
    cases ho
    exact ⟨rfl, hop⟩
  · rw [register, Table.find?_insert_of_ne hname] at ho
    exact h _ _ ho

theorem all_foldl_register {ops : List Operation} (h : r.All P) (hops : ∀ op ∈ ops, P op) :
    (ops.foldl register r).All P := by
  induction ops generalizing r with
  | nil => exact h
  | cons op ops ih =>
    exact ih (all_register h (hops op List.mem_cons_self))
      fun o ho => hops o (List.mem_cons_of_mem _ ho)

theorem all_standard (h : ∀ op ∈ Operation.standard, P op) : standard.All P :=
  all_foldl_register all_empty h

theorem all_of_withHosts (h : r.WithHosts Q) (hstandard : ∀ op ∈ Operation.standard, P op)
    (hhost : ∀ op call, op.action = .host call → Q op → P op) : r.All P := by
  induction h with
  | standard => exact all_standard hstandard
  | empty => exact all_empty
  | host name fields returns call h hallowed ih =>
    exact all_register ih (hhost _ call rfl hallowed)

/-! ### What is registered in turn -/

theorem find?_foldl_register_of_not_mem {ops : List Operation} {name : String}
    (h : name ∉ ops.map (·.name)) : (ops.foldl register r).find? name = r.find? name := by
  induction ops generalizing r with
  | nil => rfl
  | cons op ops ih =>
    rw [List.map_cons, List.mem_cons, not_or] at h
    rw [List.foldl_cons, ih h.2, register, Table.find?_insert_of_ne h.1]

theorem find?_foldl_register_of_mem {ops : List Operation} (h : (ops.map (·.name)).Nodup)
    (hop : op ∈ ops) : (ops.foldl register r).find? op.name = some op := by
  induction ops generalizing r with
  | nil => cases hop
  | cons o ops ih =>
    rw [List.map_cons, List.nodup_cons] at h
    rw [List.foldl_cons]
    rcases List.mem_cons.1 hop with rfl | hop
    · rw [find?_foldl_register_of_not_mem h.1, register, Table.find?_insert_self]
    · exact ih h.2 hop

/-- Every standard operation is found. -/
theorem find?_standard (h : op ∈ Operation.standard) : standard.find? op.name = some op :=
  find?_foldl_register_of_mem (by decide) h

theorem find?_standard_eq_none {name : String} (h : name ∉ Operation.standard.map (·.name)) :
    standard.find? name = none :=
  (find?_foldl_register_of_not_mem h).trans Table.find?_empty

/-- Callbacks are declared as they like. -/
theorem wellDeclared_of_withHosts (h : r.WithHosts Q) : r.All Operation.WellDeclared := by
  refine all_of_withHosts h Operation.wellDeclared_of_mem_standard ?_
  intro op call haction _
  rw [Operation.WellDeclared, haction]
  trivial

end Registry

end EventScript
