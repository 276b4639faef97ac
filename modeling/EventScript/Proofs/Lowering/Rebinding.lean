import EventScript.Proofs.Binding.Repeated
import EventScript.Proofs.Lowering.Growth

/-!
Lowering trees that were typed before. What typing has bound is what lowering would bind, as long as
the scope has only grown in between, so the code is the same.
-/
namespace EventScript

/-- Lowering declares variables and forgets none. -/
theorem Lowered.extends {ctx : Context} {start : Nat} {phrase : Phrase} {s s' : Lowering}
    {type : StaticType} {code : Code} {marks : List Nat}
    (h : Lowered ctx start phrase s type code marks s') : s.scope.Extends s'.scope := by
  induction h with
  | literal _ place =>
    rw [Lowering.scope_of_literal place]
    exact .refl _
  | read | noStatements | noArguments => exact .refl _
  | write _ place ih => exact ih.trans (Scope.extends_of_declare? place)
  | arithmetic _ _ ih₁ ih₂ | branch _ _ ih₁ ih₂ | statements _ _ ih₁ ih₂ | arguments _ _ ih₁ ih₂ =>
    exact ih₁.trans ih₂
  | branchElse _ _ _ ih₁ ih₂ ih₃ => exact ih₁.trans (ih₂.trans ih₃)
  | loop _ slot unit _ ih₁ ih₂ =>
    obtain ⟨_, _, rfl⟩ := Scope.temporary?_eq_some_iff.1 slot
    rw [Lowering.scope_of_literal unit] at ih₂
    exact ih₁.trans ((Scope.extends_skip _).trans ih₂)
  | each _ itemsSlot indexSlot itemSlot zero unit _ ih₁ ih₂ =>
    obtain ⟨_, _, rfl⟩ := Scope.temporary?_eq_some_iff.1 itemsSlot
    obtain ⟨_, _, rfl⟩ := Scope.temporary?_eq_some_iff.1 indexSlot
    rw [Lowering.scope_of_literal unit, Lowering.scope_of_literal zero] at ih₂
    refine ih₁.trans ((Scope.extends_skip _).trans ((Scope.extends_skip _).trans ?_))
    exact (Scope.extends_of_declare? itemSlot).trans ih₂
  | block _ ih | operand _ _ _ ih | body _ ih => exact ih
  | call _ _ made ih =>
    rw [Lowering.scope_of_target made]
    exact ih

theorem Lower.bind_congr {α β : Type} {x y : Lower α} {f g : α → Lower β} {s : Lowering}
    (hx : x s = y s) (h : ∀ a s', y s = .ok (a, s') → f a s' = g a s') :
    (x >>= f) s = (y >>= g) s := by
  change (x s >>= fun r => f r.1 r.2) = (y s >>= fun r => g r.1 r.2)
  rw [hx]
  exact bind_congr_of_ok fun r hr => h r.1 r.2 hr

theorem Lower.ite_congr {α : Type} {c : Prop} [Decidable c] {x x' y y' : Lower α} {s : Lowering}
    (hx : c → x s = x' s) (hy : ¬c → y s = y' s) :
    (if c then x else y) s = (if c then x' else y') s := by
  split
  · exact hx ‹_›
  · exact hy ‹_›

namespace Expr

variable {ctx : Context} {scope : Scope} {span : Span} {name : String}

/-- In every scope from this one on the trees have the same code, and fail alike. -/
structure LowersAlike (ctx : Context) (scope : Scope) (e e' : Expr) : Prop where
  span : e'.span = e.span
  lower : ∀ start s, scope.Extends s.scope → e'.lower ctx start s = e.lower ctx start s

theorem LowersAlike.refl (e : Expr) : LowersAlike ctx scope e e := ⟨rfl, fun _ _ _ => rfl⟩

theorem extends_of_lower {e : Expr} (hu : e.Unbound) {start : Nat} {s s' : Lowering}
    {r : StaticType × Code} (h : e.lower ctx start s = .ok (r, s')) : s.scope.Extends s'.scope := by
  obtain ⟨_, h⟩ := lowered_of_lower e hu h
  exact h.extends

theorem lowerStatements_congr {es es' : List Expr}
    (h : List.Forall₂ (LowersAlike ctx scope) es es') (hu : AllUnbound es) {start : Nat}
    {last : StaticType} {before : Code} {s : Lowering} (hs : scope.Extends s.scope) :
    lowerStatements ctx start last before es' s = lowerStatements ctx start last before es s := by
  induction h generalizing last before s with
  | nil => rfl
  | cons he _ ih =>
    rw [lowerStatements, lowerStatements]
    refine Lower.bind_congr (he.lower _ s hs) fun r s' hlower => ?_
    exact ih hu.2 (hs.trans (extends_of_lower hu.1 hlower))

theorem lowerArguments_congr {es es' : List Expr}
    (h : List.Forall₂ (LowersAlike ctx scope) es es') (hu : AllUnbound es) {start : Nat}
    {params : List StaticType} {before : Code} {s : Lowering} (hs : scope.Extends s.scope) :
    lowerArguments ctx start before params es' s =
      lowerArguments ctx start before params es s := by
  induction h generalizing params before s with
  | nil => rfl
  | cons he _ ih =>
    cases params with
    | nil => rfl
    | cons expected params =>
      rw [lowerArguments, lowerArguments]
      refine Lower.bind_congr (he.lower _ s hs) fun r s' hlower => ?_
      rw [he.span]
      refine Lower.ite_congr (fun _ => rfl) fun _ => Lower.ite_congr (fun _ => rfl) fun _ => ?_
      exact ih hu.2 (hs.trans (extends_of_lower hu.1 hlower))

/-- What a call was bound to, it is bound to again. -/
theorem targetOf_bindCall {scope' : Scope} (h : scope.Extends scope') (args : List Expr) :
    targetOf ctx scope' span name (bindCall ctx scope span name args).2
        (bindCall ctx scope span name args).1.toOption =
      targetOf ctx scope' span name args none := by
  cases ht : (bindCall ctx scope span name args).1 with
  | error e => exact congrArg Prod.fst (bindCall_bindCall h args)
  | ok target =>
    rw [targetOf, bindCall_of_extends h args ht, ht]
    rfl

mutual

/-- A tree that was typed has the code that it would have without. -/
theorem lowersAlike_infer : ∀ e : Expr, e.Unbound → LowersAlike ctx scope e (e.infer ctx scope).2
  | .number _ _, _ | .string _ _, _ | .text _ _, _ | .bool _ _, _ | .write _ _ _, _
  | .arithmetic _ _ _ _, _ | .branch _ _ _ _, _ | .loop _ _ _, _ | .each _ _ _ _, _
  | .bound _ _ _, _ | .call _ _ _ (some _), _ => .refl _
  | .read span name, _ => by
    rw [infer_read]
    exact .refl _
  | .block span statements, hu => by
    refine ⟨rfl, fun start s hs => ?_⟩
    have hstatements : List.Forall₂ (LowersAlike ctx scope) statements
        (inferLast ctx scope statements).2 :=
      forall₂_inferLast .refl (lowersAlike_infer_mem statements hu)
    rw [infer_block, Expr.lower, Expr.lower]
    exact lowerStatements_congr hstatements hu hs
  | .call span name args none, hu => by
    refine ⟨rfl, fun start s hs => ?_⟩
    have hargs : List.Forall₂ (LowersAlike ctx scope) args (bindCall ctx scope span name args).2 :=
      forall₂_bindCall .refl (lowersAlike_infer_mem args hu.2)
    rw [infer_call, Expr.lower, Expr.lower, ← hargs.length_eq]
    refine Lower.bind_congr rfl fun t s' ht => ?_
    obtain ⟨rfl, rfl⟩ := Lower.get_eq_ok.1 ht
    refine Lower.bind_congr (by rw [targetOf_bindCall hs args]) fun target _ ht => ?_
    obtain ⟨_, rfl⟩ := Lower.lift_eq_ok.1 ht
    refine Lower.ite_congr (fun _ => rfl) fun _ => ?_
    exact Lower.bind_congr (lowerArguments_congr hargs hu.2 hs) fun _ _ _ => rfl

theorem lowersAlike_infer_mem : ∀ es : List Expr, AllUnbound es →
    ∀ e ∈ es, LowersAlike ctx scope e (e.infer ctx scope).2
  | [], _ => nofun
  | e :: es, hu =>
    List.forall_mem_cons.2 ⟨lowersAlike_infer e hu.1, lowersAlike_infer_mem es hu.2⟩

end

end Expr

end EventScript
