import EventScript.Proofs.Submission

/-!
Where constants come from. Every constant of a program is a literal of one of its trees, or a number
with which a loop counts.
-/
namespace EventScript

/-- A property that all literals of trees have. -/
def Literal.Common (P : Literal → Prop) : Prop := ∀ e type l, Expr.IsLiteral e type l → P l

/-- All pooled literals have the property. -/
def Pools.Hold (P : Literal → Prop) (pools : Pools) : Prop :=
  ∀ e ∈ pools.literals.entries, P e.1

variable {P : Literal → Prop} {ctx : Context}

theorem Pools.Hold.literal {pools : Pools} {scope : Scope} {s' : Lowering} {l : Literal}
    {span : Span} {i : Nat} (hp : pools.Hold P) (hl : P l)
    (h : Lower.literal l span ⟨pools, scope⟩ = .ok (i, s')) : s'.pools.Hold P := fun e he =>
  (Lowering.mem_literals_of_literal h e he).elim (hp e) fun heq => heq ▸ hl

/-- Lowering pools nothing but literals of trees and counting numbers. -/
theorem Lowered.hold (hP : Literal.Common P) {start : Nat} {phrase : Phrase} {s s' : Lowering}
    {type : StaticType} {code : Code} {marks : List Nat}
    (h : Lowered ctx start phrase s type code marks s') (hs : s.pools.Hold P) :
    s'.pools.Hold P := by
  -- The numbers with which loops count could be written in a tree as well.
  have hnumber (n : Number) : P (.number n) := hP (.number .none n) _ _ .number
  induction h with
  | literal value place => exact hs.literal (hP _ _ _ (Expr.isLiteral_of_literal? value)) place
  | read | noStatements | noArguments => exact hs
  | write _ _ ih => exact ih hs
  | arithmetic _ _ ih₁ ih₂ | branch _ _ ih₁ ih₂ | statements _ _ ih₁ ih₂ | arguments _ _ ih₁ ih₂ =>
    exact ih₂ (ih₁ hs)
  | branchElse _ _ _ ih₁ ih₂ ih₃ => exact ih₃ (ih₂ (ih₁ hs))
  | loop _ _ unit _ ih₁ ih₂ => exact ih₂ ((ih₁ hs).literal (hnumber .one) unit)
  | each _ _ _ _ zero unit _ ih₁ ih₂ =>
    exact ih₂ (((ih₁ hs).literal (hnumber .zero) zero).literal (hnumber .one) unit)
  | block _ ih | operand _ _ _ ih | body _ ih => exact ih hs
  | call _ _ made ih =>
    rw [Pools.Hold, Lowering.literals_of_target made]
    exact ih hs

namespace Definition

theorem hold_of_lowerAll (hP : Literal.Common P) : ∀ {ds : List Definition} {pools pools' : Pools}
    {routines routines' : Array Routine}, (∀ d ∈ ds, d.schema.body.Unbound) → pools.Hold P →
      lowerAll ctx pools routines ds = .ok (routines', pools') → pools'.Hold P
  | [], _, _, _, _, _, hs, h => by
    cases h
    exact hs
  | d :: ds, pools, pools', routines, routines', hu, hs, h => by
    simp only [lowerAll, bind_eq_ok] at h
    obtain ⟨⟨r, pools₁⟩, hd, h⟩ := h
    obtain ⟨marks, s', _, ⟨_, _, lowered, _⟩, rfl⟩ :=
      lowers_of_lowerWith (hu d List.mem_cons_self) hd
    exact hold_of_lowerAll hP (fun e he => hu e (List.mem_cons_of_mem _ he)) (lowered.hold hP hs) h

end Definition

/-- What all literals of trees have in common is true of all constants. -/
theorem Submission.forall_constants {registry : Registry} {limits : Limits} {source : Submission}
    {p : Program} (hP : Literal.Common P) (h : source.compile registry limits = .ok p) :
    ∀ l ∈ p.constants, P l := by
  rw [compile_eq] at h
  obtain ⟨ds, hds, h⟩ := bind_eq_ok.1 h
  simp only [Program.ofDefinitions, bind_eq_ok] at h
  obtain ⟨schemas, -, h⟩ := h
  split at h
  · simp [refuse, bind, Except.bind] at h
  simp only [bind_eq_ok] at h
  obtain ⟨⟨routines, pools⟩, hall, h⟩ := h
  cases h
  have hpools : pools.Hold P := Definition.hold_of_lowerAll hP
    (fun d hd => (isSource_of_definitions hds d hd).body.unbound) (by simp [Pools.Hold]) hall
  intro l hl
  obtain ⟨e, he, rfl⟩ := Array.mem_map.1 hl
  exact hpools e he

end EventScript
