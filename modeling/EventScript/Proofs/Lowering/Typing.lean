import EventScript.Proofs.Evaluation
import EventScript.Proofs.Lowering.Growth

/-!
Types and scopes without code: a tree has the type in which it is lowered, and leaves the scope that
lowering leaves.
-/
namespace EventScript

/-- The type of a phrase, and the scope behind it. -/
def Phrase.typing (ctx : Context) (scope : Scope) : Phrase → StaticType × Scope
  | .expr e | .operand _ e => e.typing ctx scope
  | .body e => (.void, (e.typing ctx scope).2)
  | .statements last es => Expr.typingStatements ctx scope last es
  | .arguments _ es => (.void, Expr.typingArguments ctx scope es)

theorem Scope.declared_of_declare? {s s' : Scope} {name : String} {type : StaticType} {l : Local}
    (h : s.declare? name type = some (l, s')) : s.declared name type = s' := by
  rw [declared, h]
  rfl

theorem Scope.skip_of_temporary? {s s' : Scope} {slot : Nat}
    (h : s.temporary? = some (slot, s')) : s.skip = s' := by
  obtain ⟨_, _, rfl⟩ := temporary?_eq_some_iff.1 h
  rfl

namespace Lowered

variable {ctx : Context} {start : Nat} {phrase : Phrase} {s s' : Lowering} {type : StaticType}
  {code : Code} {marks : List Nat}

theorem typing_of_literal {e : Expr} {l : Literal} {scope : Scope} (h : e.IsLiteral type l) :
    e.typing ctx scope = (type, scope) := by
  cases h <;> rfl

/-- Trees have the types and scopes in which they are lowered. -/
theorem typing (h : Lowered ctx start phrase s type code marks s') :
    phrase.typing ctx s.scope = (type, s'.scope) := by
  induction h with
  | literal value place =>
    rw [Lowering.scope_of_literal place]
    exact typing_of_literal (Expr.isLiteral_of_literal? value)
  | read found => simp [Phrase.typing, Expr.typing, found]
  | write _ place ih =>
    simp only [Phrase.typing] at ih
    simp only [Phrase.typing, Expr.typing, ih, Scope.declared_of_declare? place]
  | arithmetic _ _ ih₁ ih₂ =>
    simp only [Phrase.typing] at ih₁ ih₂
    simp only [Phrase.typing, Expr.typing, ih₁, ih₂]
  | branch _ _ ih₁ ih₂ =>
    simp only [Phrase.typing, Prod.mk.injEq] at ih₁ ih₂
    simp only [Phrase.typing, Expr.typing, ih₁, ih₂]
  | branchElse _ _ _ ih₁ ih₂ ih₃ =>
    simp only [Phrase.typing, Prod.mk.injEq] at ih₁ ih₂ ih₃
    simp only [Phrase.typing, Expr.typing, ih₁, ih₂, ih₃]
  | loop _ slot unit _ ih₁ ih₂ =>
    simp only [Phrase.typing, Prod.mk.injEq, Lowering.scope_of_literal unit] at ih₁ ih₂
    simp only [Phrase.typing, Expr.typing, ih₁, Scope.skip_of_temporary? slot, ih₂]
  | each _ itemsSlot indexSlot itemSlot zero unit _ ih₁ ih₂ =>
    simp only [Phrase.typing, Prod.mk.injEq, Lowering.scope_of_literal unit,
      Lowering.scope_of_literal zero] at ih₁ ih₂
    simp only [Phrase.typing, Expr.typing, ih₁, Scope.skip_of_temporary? itemsSlot,
      Scope.skip_of_temporary? indexSlot, Scope.declared_of_declare? itemSlot, ih₂]
  | block _ ih => exact ih
  | call bound _ made ih =>
    simp only [Phrase.typing, Prod.mk.injEq, true_and] at ih
    simp only [Phrase.typing, Expr.typing, bound, ih, Lowering.scope_of_target made]
    rfl
  | operand _ _ _ ih => exact ih
  | body _ ih =>
    simp only [Phrase.typing] at ih
    simp only [Phrase.typing, ih]
  | noStatements => rfl
  | statements _ _ ih₁ ih₂ =>
    simp only [Phrase.typing] at ih₁ ih₂
    simp only [Phrase.typing, Expr.typingStatements, ih₁, ih₂]
  | noArguments => rfl
  | arguments _ _ ih₁ ih₂ =>
    simp only [Phrase.typing, Prod.mk.injEq, true_and] at ih₁ ih₂
    simp only [Phrase.typing, Expr.typingArguments, ih₁, ih₂]

end Lowered

end EventScript
