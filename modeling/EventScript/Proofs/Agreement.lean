import EventScript.Syntax.Binding

/-!
Contexts that offer the same to the calls of a tree. What is looked up for a call is its name and
that name behind a type, so contexts that answer alike there cannot be told apart by the tree: its
types, its targets and its errors are the same.
-/
namespace EventScript

namespace Expr

mutual

/-- The names of the calls in a tree, as they are written. -/
@[simp] def callNames : Expr → List String
  | .number _ _ | .string _ _ | .text _ _ | .bool _ _ | .read _ _ => []
  | .write _ _ value => value.callNames
  | .arithmetic _ _ left right => left.callNames ++ right.callNames
  | .branch _ condition thenBody none => condition.callNames ++ thenBody.callNames
  | .branch _ condition thenBody (some elseBody) =>
    condition.callNames ++ thenBody.callNames ++ elseBody.callNames
  | .loop _ count body => count.callNames ++ body.callNames
  | .each _ _ sequence body => sequence.callNames ++ body.callNames
  | .block _ statements => allCallNames statements
  | .bound _ _ args => allCallNames args
  | .call _ name args _ => name :: allCallNames args

@[simp] def allCallNames : List Expr → List String
  | [] => []
  | e :: es => e.callNames ++ allCallNames es

end

end Expr

/-- Calls of these names find the same in both contexts, whatever the type of their first argument
is. -/
structure Context.AgreeOn (names : List String) (ctx ctx' : Context) : Prop where
  operation : ∀ name ∈ names, ctx.registry.find? name = ctx'.registry.find? name
  typed : ∀ name ∈ names, ∀ type,
    ctx.registry.find? (alternate type name) = ctx'.registry.find? (alternate type name)
  schema : ∀ name, ctx.schemas.find? name = ctx'.schemas.find? name

namespace Context.AgreeOn

variable {ctx ctx' : Context} {names names' : List String} {name : String}

theorem mono (h : AgreeOn names ctx ctx') (hsub : names' ⊆ names) : AgreeOn names' ctx ctx' where
  operation n hn := h.operation n (hsub hn)
  typed n hn := h.typed n (hsub hn)
  schema := h.schema

theorem left (h : AgreeOn (names ++ names') ctx ctx') : AgreeOn names ctx ctx' :=
  h.mono (List.subset_append_left _ _)

theorem right (h : AgreeOn (names ++ names') ctx ctx') : AgreeOn names' ctx ctx' :=
  h.mono (List.subset_append_right _ _)

theorem tail (h : AgreeOn (name :: names) ctx ctx') : AgreeOn names ctx ctx' :=
  h.mono (List.subset_cons_self _ _)

theorem find?_eq (h : AgreeOn (name :: names) ctx ctx') :
    ctx.registry.find? name = ctx'.registry.find? name := h.operation name List.mem_cons_self

theorem callee_eq (h : AgreeOn (name :: names) ctx ctx') (type : StaticType) (span : Span) :
    ctx.callee name (Context.alternate type name) span =
      ctx'.callee name (Context.alternate type name) span := by
  rw [callee, callee, callee?, callee?, h.find?_eq, h.typed name List.mem_cons_self,
    h.schema, h.schema]

/-- A call without arguments has no other name. -/
theorem callee_self_eq (h : AgreeOn (name :: names) ctx ctx') (span : Span) :
    ctx.callee name name span = ctx'.callee name name span := by
  rw [callee, callee, callee?, callee?, h.find?_eq, h.schema]

end Context.AgreeOn

namespace Expr

variable {ctx ctx' : Context} {scope : Scope}

mutual

theorem infer_eq_of_agreeOn : ∀ e : Expr, ctx.AgreeOn e.callNames ctx' →
    e.infer ctx scope = e.infer ctx' scope
  | .number _ _, _ | .string _ _, _ | .text _ _, _ | .bool _ _, _ | .read _ _, _
  | .write _ _ _, _ | .arithmetic _ _ _ _, _ | .branch _ _ _ _, _ | .loop _ _ _, _
  | .each _ _ _ _, _ | .bound _ _ _, _ | .call _ _ _ (some _), _ => by simp only [infer]
  | .block _ statements, h => by
    simp only [infer, inferLast_eq_of_agreeOn statements h]
  | .call _ _ args none, h => by
    simp only [infer, bindCall_eq_of_agreeOn args h]

theorem inferLast_eq_of_agreeOn : ∀ es : List Expr, ctx.AgreeOn (allCallNames es) ctx' →
    inferLast ctx scope es = inferLast ctx' scope es
  | [], _ => by simp only [inferLast]
  | [e], h => by
    simp only [inferLast, infer_eq_of_agreeOn e h.left]
  | e :: f :: es, h => by
    have hlast := inferLast_eq_of_agreeOn (f :: es) h.right
    simp only [inferLast, hlast]

theorem bindCall_eq_of_agreeOn {span : Span} {name : String} : ∀ args : List Expr,
    ctx.AgreeOn (name :: allCallNames args) ctx' →
      bindCall ctx scope span name args = bindCall ctx' scope span name args
  | [], h => by simp only [bindCall, h.callee_self_eq]
  | a :: as, h => by
    have ha := infer_eq_of_agreeOn a h.tail.left
    have has {c fields} := inferFields_eq_of_agreeOn (c := c) fields as h.tail.right
    simp only [bindCall, h.find?_eq, h.callee_eq, ha, has]

theorem inferFields_eq_of_agreeOn {c : Callee} : ∀ (fields : List (String × StaticType))
    (es : List Expr), ctx.AgreeOn (allCallNames es) ctx' →
      inferFields ctx scope c fields es = inferFields ctx' scope c fields es
  | [], _, _ | _ :: _, [], _ => by simp only [inferFields]
  | _ :: fields, e :: es, h => by
    have hes := inferFields_eq_of_agreeOn (c := c) fields es h.right
    simp only [inferFields, infer_eq_of_agreeOn e h.left, hes]

end

theorem targetOf_eq_of_agreeOn {span : Span} {name : String} {args : List Expr}
    {target : Option Target} (h : ctx.AgreeOn (name :: allCallNames args) ctx') :
    targetOf ctx scope span name args target = targetOf ctx' scope span name args target := by
  cases target with
  | none => simp only [targetOf, bindCall_eq_of_agreeOn args h]
  | some target => rfl

end Expr

end EventScript
