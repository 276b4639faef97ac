import EventScript.Proofs.Lookup
import EventScript.Proofs.Machine.Unlimited
import EventScript.Syntax.Binding

/-!
Shapes of the operand stack. A shape lists what is known of the topmost operands. Every instruction
takes a shape to the next one, so code that jumps only to places where it has the shape at hand has
one shape at each offset, however it gets there.
-/
namespace EventScript

/-- How much shapes say. -/
structure View where
  /-- The kinds of operands are tracked, not only their number. -/
  kinds : Bool
  /-- Nothing lies below the operands of a shape. -/
  exact : Bool

/-- The kinds of the topmost operands, as far as they are known. -/
abbrev Shape := List (Option ValueKind)

namespace View

variable (V : View)

def seen (kind : Option ValueKind) : Option ValueKind := if V.kinds then kind else none

def kindOf (t : StaticType) : Option ValueKind := V.seen t.runtimeKind?

/-- What a value of the type adds to a shape; `void` adds nothing. -/
def result (t : StaticType) : Shape := if t = .void then [] else [V.kindOf t]

/-- An operand known this way can stand where the type is expected. -/
def suits (t : StaticType) (kind : Option ValueKind) : Bool :=
  V.kindOf t = none || kind = V.kindOf t

/-- Arguments known this way, the first one first, suit the parameters. -/
def passes : List StaticType → Shape → Bool
  | [], [] => true
  | t :: ts, kind :: kinds => V.suits t kind && passes ts kinds
  | _, _ => false

/-- A variable of type `void` adds an operand that no shape counts, so nothing is known of the
operands' order after it. -/
def loaded (t? : Option StaticType) (σ : Shape) : Option Shape :=
  match t? with
  | some .void => if V.exact then none else some (σ.map fun _ => none)
  | some t => some (V.kindOf t :: σ)
  | none => some (none :: σ)

def stores (t? : Option StaticType) (kind : Option ValueKind) : Bool :=
  t?.all (V.suits · kind)

/-- A call takes its arguments and leaves its result. -/
def called (params : List StaticType) (result : StaticType) (argc : Nat) (returns : Bool)
    (σ : Shape) : Option Shape :=
  if argc = params.length ∧ V.passes params (σ.take argc).reverse ∧
      returns = decide (result ≠ .void) then
    some (V.result result ++ σ.drop argc)
  else none

end View

/-- What code can rely on: what its positions name, and the scope at its end. -/
structure Setting where
  constants : Array Literal
  operation? : Nat → Option Operation
  signature? : Nat → Option Signature
  scope : Scope

def Instruction.target? : Instruction → Option Nat
  | .jump target | .jumpIfFalse target => some target
  | _ => none

namespace Setting

variable (E : Setting) (V : View)

/-- The shape after an instruction; `none` if it cannot be carried out there. -/
def effect : Instruction → Shape → Option Shape
  | .pushConstant i, σ => E.constants[i]?.map fun l => V.seen (some l.toValue.kind) :: σ
  | .loadLocal slot, σ =>
    if slot < E.scope.slotCount then V.loaded (E.scope.typeAt slot) σ else none
  | .storeLocal slot, kind :: σ =>
    if slot < E.scope.slotCount ∧ V.stores (E.scope.typeAt slot) kind then some σ else none
  | .pop, _ :: σ | .jumpIfFalse _, _ :: σ => some σ
  | .arithmetic _, _ :: _ :: σ | .lessThan, _ :: _ :: σ | .atLeast, _ :: _ :: σ =>
    some (V.seen (some .number) :: σ)
  | .expect kind, _ :: σ => some (V.seen (some kind) :: σ)
  | .toText, _ :: σ => some (V.seen (some .text) :: σ)
  | .jump _, σ => some σ
  | .native op, σ =>
    if op.arity ≤ σ.length then some (V.result op.returns ++ σ.drop op.arity) else none
  | .invokeHost i argc returns, σ => (E.operation? i).bind fun op =>
    V.called (op.fields.map (·.type)) op.returns argc returns σ
  | .call i argc returns, σ => (E.signature? i).bind fun sig =>
    V.called (sig.params.map (·.2)) sig.returns argc returns σ
  | _, _ => none

/-- The shape after code that is carried out from the first instruction to the last. -/
def flow : List Instruction → Shape → Option Shape
  | [], σ => some σ
  | i :: is, σ => (E.effect V i σ).bind (flow is)

/-- From `start` on, offsets have the shapes that the code goes through. -/
def Along (shapes : Nat → Option Shape) (start : Nat) (code : List Instruction) (σ : Shape) :
    Prop :=
  ∀ k ≤ code.length, shapes (start + k) = E.flow V (code.take k) σ

/-- Jumps lead to offsets that have the shape at hand. -/
def Lands (shapes : Nat → Option Shape) (code : List Instruction) (σ : Shape) : Prop :=
  ∀ k i target, code[k]? = some i → i.target? = some target →
    shapes target = E.flow V (code.take (k + 1)) σ

/-- Code at `start` goes from one shape to another, jumps keep to the shapes it goes through, and
at the marks there are no operands. -/
structure Checks (start : Nat) (code : List Instruction) (σ τ : Shape) (marks : List Nat) :
    Prop where
  flow : E.flow V code σ = some τ
  lands : ∀ shapes, E.Along V shapes start code σ → E.Lands V shapes code σ
  marked : V.exact = true → ∀ shapes, E.Along V shapes start code σ →
    ∀ mark ∈ marks, shapes mark = some []

variable {E V} {shapes : Nat → Option Shape} {start : Nat} {a b code : List Instruction}
  {σ τ ρ : Shape} {marks marks' : List Nat} {kind : Option ValueKind}

theorem flow_append : E.flow V (a ++ b) σ = (E.flow V a σ).bind (E.flow V b) := by
  induction a generalizing σ with
  | nil => rfl
  | cons i a ih =>
    simp only [List.cons_append, flow, Option.bind_assoc]
    congr 1
    funext τ
    exact ih

theorem flow_append_eq (ha : E.flow V a σ = some τ) : E.flow V (a ++ b) σ = E.flow V b τ := by
  rw [flow_append, ha, Option.bind_some]

namespace Along

theorem left (h : E.Along V shapes start (a ++ b) σ) : E.Along V shapes start a σ := by
  intro k hk
  rw [h k (by rw [List.length_append]; omega), List.take_append_of_le_length hk]

theorem right (h : E.Along V shapes start (a ++ b) σ) (ha : E.flow V a σ = some τ) :
    E.Along V shapes (start + a.length) b τ := by
  intro k hk
  rw [Nat.add_assoc, h _ (by rw [List.length_append]; omega), List.take_length_add_append,
    flow_append_eq ha]

theorem first (h : E.Along V shapes start code σ) : shapes start = some σ := by
  have := h 0 (Nat.zero_le _)
  rwa [Nat.add_zero] at this

theorem last (h : E.Along V shapes start code σ) (hcode : E.flow V code σ = some τ) :
    shapes (start + code.length) = some τ := by
  rw [h _ (Nat.le_refl _), List.take_length, hcode]

end Along

namespace Lands

theorem append (ha : E.flow V a σ = some τ) (hl : E.Lands V shapes a σ)
    (hr : E.Lands V shapes b τ) : E.Lands V shapes (a ++ b) σ := by
  intro k i target hi ht
  by_cases hk : k < a.length
  · rw [List.getElem?_append_left hk] at hi
    rw [List.take_append_of_le_length hk]
    exact hl k i target hi ht
  · have hk := Nat.le_of_not_lt hk
    rw [List.getElem?_append_right hk] at hi
    rw [show k + 1 = a.length + (k - a.length + 1) by omega, List.take_length_add_append,
      flow_append_eq ha]
    exact hr _ i target hi ht

theorem straight (h : ∀ i ∈ code, i.target? = none) : E.Lands V shapes code σ := by
  intro k i target hi ht
  rw [h i (List.mem_of_getElem? hi)] at ht
  cases ht

theorem single {i : Instruction} (h : ∀ target, i.target? = some target →
    shapes target = E.effect V i σ) : E.Lands V shapes [i] σ := by
  intro k j target hj ht
  cases k with
  | zero =>
    cases hj
    rw [h target ht]
    simp [flow]
  | succ k => cases hj

end Lands

namespace Checks

theorem nil : E.Checks V start [] σ σ [] :=
  ⟨rfl, fun _ _ => Lands.straight (by simp), fun _ _ _ => by simp⟩

theorem append (ha : E.Checks V start a σ τ marks)
    (hb : E.Checks V (start + a.length) b τ ρ marks') :
    E.Checks V start (a ++ b) σ ρ (marks ++ marks') where
  flow := by rw [flow_append_eq ha.flow, hb.flow]
  lands := fun shapes h =>
    .append ha.flow (ha.lands shapes h.left) (hb.lands shapes (h.right ha.flow))
  marked := by
    intro hexact shapes h mark hmark
    rcases List.mem_append.1 hmark with hmark | hmark
    · exact ha.marked hexact shapes h.left mark hmark
    · exact hb.marked hexact shapes (h.right ha.flow) mark hmark

/-- Code without jumps. -/
theorem straight (hcode : ∀ i ∈ code, i.target? = none) (h : E.flow V code σ = some τ) :
    E.Checks V start code σ τ [] :=
  ⟨h, fun _ _ => .straight hcode, fun _ _ _ => by simp⟩

/-- A mark at the beginning. -/
theorem mark (h : E.Checks V start code σ τ marks) (hσ : V.exact = true → σ = []) :
    E.Checks V start code σ τ (start :: marks) where
  flow := h.flow
  lands := h.lands
  marked := by
    intro hexact shapes hshapes m hm
    rcases List.mem_cons.1 hm with rfl | hm
    · rw [hshapes.first, hσ hexact]
    · exact h.marked hexact shapes hshapes m hm

/-- A body that a condition can skip. -/
theorem skip (h : E.Checks V (start + 1) code σ σ marks) :
    E.Checks V start (.jumpIfFalse (start + 1 + code.length) :: code) (kind :: σ) σ marks where
  flow := h.flow
  lands := by
    intro shapes hshapes
    have hone : E.flow V [.jumpIfFalse (start + 1 + code.length)] (kind :: σ) = some σ := rfl
    have hbody := Along.right (a := [_]) hshapes hone
    refine Lands.append (a := [_]) hone (.single ?_) (h.lands shapes hbody)
    rintro _ ⟨⟩
    exact hbody.last h.flow
  marked := fun hexact shapes hshapes =>
    h.marked hexact shapes (Along.right (a := [_]) (τ := σ) hshapes rfl)

/-- Two bodies between which a condition chooses. -/
theorem choose (ha : E.Checks V (start + 1) a σ σ marks)
    (hb : E.Checks V (start + 1 + a.length + 1) b σ σ marks') :
    E.Checks V start (.jumpIfFalse (start + 1 + a.length + 1) ::
      (a ++ .jump (start + 1 + a.length + 1 + b.length) :: b)) (kind :: σ) σ (marks ++ marks') := by
  have hjump : E.flow V [.jump (start + 1 + a.length + 1 + b.length)] σ = some σ := rfl
  have hone : E.flow V [.jumpIfFalse (start + 1 + a.length + 1)] (kind :: σ) = some σ := rfl
  have hrest : E.flow V (.jump (start + 1 + a.length + 1 + b.length) :: b) σ = some σ := hb.flow
  have split : ∀ {shapes}, E.Along V shapes start (.jumpIfFalse (start + 1 + a.length + 1) ::
      (a ++ .jump (start + 1 + a.length + 1 + b.length) :: b)) (kind :: σ) →
      E.Along V shapes (start + 1) a σ ∧ E.Along V shapes (start + 1 + a.length + 1) b σ := by
    intro shapes h
    have h := Along.right (a := [_]) h hone
    exact ⟨h.left, Along.right (a := [_]) (h.right ha.flow) hjump⟩
  constructor
  · change E.flow V (a ++ _) σ = some σ
    rw [flow_append_eq ha.flow, hrest]
  · intro shapes h
    obtain ⟨h₁, h₂⟩ := split h
    refine Lands.append (a := [_]) hone (.single ?_) ?_
    · rintro _ ⟨⟩
      exact h₂.first
    · refine Lands.append ha.flow (ha.lands shapes h₁) ?_
      refine Lands.append (a := [_]) hjump (.single ?_) (hb.lands shapes h₂)
      rintro _ ⟨⟩
      exact h₂.last hb.flow
  · intro hexact shapes h mark hmark
    obtain ⟨h₁, h₂⟩ := split h
    rcases List.mem_append.1 hmark with hmark | hmark
    · exact ha.marked hexact shapes h₁ mark hmark
    · exact hb.marked hexact shapes h₂ mark hmark

/-- A body that comes round as long as a condition holds. -/
theorem cycle {test advance : List Instruction} (htest : ∀ i ∈ test, i.target? = none)
    (hadvance : ∀ i ∈ advance, i.target? = none) (ht : E.flow V test σ = some (kind :: σ))
    (hb : E.Checks V (start + test.length + 1) b σ σ marks) (ha : E.flow V advance σ = some σ)
    (hσ : V.exact = true → σ = []) :
    E.Checks V start (test ++ .jumpIfFalse (start + test.length + 1 + b.length + advance.length + 1)
      :: (b ++ (advance ++ [.jump start]))) σ σ (start :: marks) := by
  have hone : E.flow V [.jumpIfFalse (start + test.length + 1 + b.length + advance.length + 1)]
      (kind :: σ) = some σ := rfl
  have hjump : E.flow V [.jump start] σ = some σ := rfl
  have htail : E.flow V (b ++ (advance ++ [.jump start])) σ = some σ := by
    rw [flow_append_eq hb.flow, flow_append_eq ha, hjump]
  refine mark ⟨?_, ?_, ?_⟩ hσ
  · rw [flow_append_eq ht]
    exact htail
  · intro shapes h
    have hbody := Along.right (a := [_]) (h.right ht) hone
    refine Lands.append ht (.straight htest) (Lands.append (a := [_]) hone (.single ?_) ?_)
    · rintro _ ⟨⟩
      refine Eq.trans (congrArg shapes ?_) (hbody.last htail)
      simp only [List.append_eq, List.length_append, List.length_singleton]
      omega
    · refine Lands.append hb.flow (hb.lands shapes hbody.left) ?_
      refine Lands.append ha (.straight hadvance) (.single ?_)
      rintro _ ⟨⟩
      exact h.first
  · intro hexact shapes h
    exact hb.marked hexact shapes (Along.right (a := [_]) (h.right ht) hone).left

end Checks

end Setting

end EventScript
