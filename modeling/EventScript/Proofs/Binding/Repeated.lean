import EventScript.Proofs.Lists
import EventScript.Proofs.Lookup
import EventScript.Proofs.Outcome
import EventScript.Syntax.Binding

/-!
Typing asked for again. What typing answers and what it binds rests on nothing but the types of the
names in scope, so a type that was found is found in every later scope, and a tree whose calls have
been bound in an earlier scope is typed as the tree without those bindings is.
-/
namespace EventScript

namespace Context

/-- What is looked at before the first argument has a type: the number of arguments, if an operation
has the very name of the call. -/
def checkNamed (ctx : Context) (name : String) (count : Nat) (span : Span) : Compiled Unit :=
  match ctx.registry.find? name with
  | some op => (Callee.ofOperation op).checkCount count span
  | none => .ok ()

/-- The callee by the type of the first argument, which has to fill the first field. -/
def calleeBy (ctx : Context) (name : String) (count : Nat) (span first : Span)
    (type : StaticType) : Compiled Callee := do
  let c ← ctx.callee name (alternate type name) span
  c.checkCount count span
  c.fields.head?.elim (.ok ()) fun f => c.checkField f type first
  return c

variable {ctx : Context} {name : String} {span first : Span} {count : Nat} {op : Operation}

/-- An operation of the very name is called whatever the type of the first argument is. -/
theorem callee?_of_named (hop : ctx.registry.find? name = some op) (other : String) :
    ctx.callee? name other = some (.ofOperation op) := by
  simp only [callee?, hop, Option.orElse_eq_orElse, Option.orElse_eq_or, Option.some_or,
    Option.map_some]

theorem callee_of_named (hop : ctx.registry.find? name = some op) (other : String) :
    ctx.callee name other span = .ok (.ofOperation op) := by
  rw [callee, callee?_of_named hop]

end Context

namespace Expr

variable {ctx : Context} {scope scope' : Scope} {span : Span} {name : String}

theorem infer_read : (read span name).infer ctx scope =
    ((scope.find? name).elim (refuse (.undefinedVariable name) span) fun l => .ok l.type,
      .read span name) := by
  unfold infer
  cases scope.find? name <;> rfl

theorem infer_block (es : List Expr) : (block span es).infer ctx scope =
    ((inferLast ctx scope es).1, .block span (inferLast ctx scope es).2) := rfl

theorem infer_call (args : List Expr) : (call span name args none).infer ctx scope =
    ((bindCall ctx scope span name args).1.map (·.returns),
      .call span name (bindCall ctx scope span name args).2
        (bindCall ctx scope span name args).1.toOption) := rfl

theorem infer_called (args : List Expr) (target : Target) :
    (call span name args (some target)).infer ctx scope =
      (.ok target.returns, .call span name args (some target)) := rfl

theorem inferLast_singleton (e : Expr) : inferLast ctx scope [e] =
    ((e.infer ctx scope).1, [(e.infer ctx scope).2]) := rfl

theorem inferLast_cons (e : Expr) {es : List Expr} (hes : es ≠ []) :
    inferLast ctx scope (e :: es) =
      ((inferLast ctx scope es).1, e :: (inferLast ctx scope es).2) := by
  cases es with
  | nil => exact absurd rfl hes
  | cons f es => rfl

theorem inferFields_cons {c : Callee} (f : String × StaticType) (fs : List (String × StaticType))
    (a : Expr) (as : List Expr) : inferFields ctx scope c (f :: fs) (a :: as) =
      match (a.infer ctx scope).1 >>= fun type => c.checkField f type a.span with
      | .error e => (.error e, (a.infer ctx scope).2 :: as)
      | .ok () => ((inferFields ctx scope c fs as).1,
          (a.infer ctx scope).2 :: (inferFields ctx scope c fs as).2) := rfl

/-- The steps by which a call with arguments is bound, whichever way its callee is found. -/
theorem bindCall_cons (a : Expr) (as : List Expr) :
    bindCall ctx scope span name (a :: as) =
      match ctx.checkNamed name (as.length + 1) span with
      | .error e => (.error e, a :: as)
      | .ok () =>
        match (a.infer ctx scope).1 >>= ctx.calleeBy name (as.length + 1) span a.span with
        | .error e => (.error e, (a.infer ctx scope).2 :: as)
        | .ok c =>
          ((inferFields ctx scope c c.fields.tail as).1.map fun () => c.target,
            (a.infer ctx scope).2 :: (inferFields ctx scope c c.fields.tail as).2) := by
  rw [bindCall, Context.checkNamed]
  cases hop : ctx.registry.find? name with
  | none => rfl
  | some op =>
    simp only
    cases hcount : (Callee.ofOperation op).checkCount (as.length + 1) span with
    | error e => rfl
    | ok u =>
      cases htype : (a.infer ctx scope).1 with
      | error e => rfl
      | ok type =>
        have hcallee : ctx.calleeBy name (as.length + 1) span a.span type = do
            (Callee.ofOperation op).fields.head?.elim (.ok ()) fun f =>
              (Callee.ofOperation op).checkField f type a.span
            return Callee.ofOperation op := by
          rw [Context.calleeBy, Context.callee_of_named hop]
          change (do
            (Callee.ofOperation op).checkCount (as.length + 1) span
            _ : Compiled Callee) = _
          rw [hcount]
          rfl
        simp only [bind, Except.bind, hcallee]
        cases (Callee.ofOperation op).fields.head?.elim (Except.ok ()) fun f =>
          (Callee.ofOperation op).checkField f type a.span <;> rfl

/-! ### Part by part -/

section

variable {R : Expr → Expr → Prop}

/-- Typing a block changes the last statement at most, and only by typing it. -/
theorem forall₂_inferLast (hrefl : ∀ e, R e e) {es : List Expr}
    (h : ∀ e ∈ es, R e (e.infer ctx scope).2) : List.Forall₂ R es (inferLast ctx scope es).2 := by
  induction es with
  | nil => exact .nil
  | cons e es ih =>
    have h := List.forall_mem_cons.1 h
    cases es with
    | nil => exact .cons h.1 .nil
    | cons f es =>
      rw [inferLast_cons e (List.cons_ne_nil f es)]
      exact .cons (hrefl e) (ih h.2)

/-- Arguments that are looked at are changed only by being typed. -/
theorem forall₂_inferFields (hrefl : ∀ e, R e e) {c : Callee} {fields : List (String × StaticType)}
    {args : List Expr} (h : ∀ e ∈ args, R e (e.infer ctx scope).2) :
    List.Forall₂ R args (inferFields ctx scope c fields args).2 := by
  induction args generalizing fields with
  | nil => cases fields <;> exact .nil
  | cons a as ih =>
    have h := List.forall_mem_cons.1 h
    cases fields with
    | nil => exact List.forall₂_same.2 fun e _ => hrefl e
    | cons f fs =>
      rw [inferFields_cons]
      split
      · exact .cons h.1 (List.forall₂_same.2 fun e _ => hrefl e)
      · exact .cons h.1 (ih h.2)

theorem forall₂_bindCall (hrefl : ∀ e, R e e) {args : List Expr}
    (h : ∀ e ∈ args, R e (e.infer ctx scope).2) :
    List.Forall₂ R args (bindCall ctx scope span name args).2 := by
  cases args with
  | nil => exact .nil
  | cons a as =>
    have h := List.forall_mem_cons.1 h
    rw [bindCall_cons]
    split
    · exact List.forall₂_same.2 fun e _ => hrefl e
    · split
      · exact .cons h.1 (List.forall₂_same.2 fun e _ => hrefl e)
      · exact .cons h.1 (forall₂_inferFields hrefl h.2)

end

/-! ### In a later scope -/

mutual

/-- A type that was found, and all that was bound to find it, is found in every later scope. -/
theorem infer_of_extends (h : scope.Extends scope') : ∀ (e : Expr) {type : StaticType},
    (e.infer ctx scope).1 = .ok type → e.infer ctx scope' = e.infer ctx scope
  | .number _ _, _, _ | .string _ _, _, _ | .text _ _, _, _ | .bool _ _, _, _
  | .write _ _ _, _, _ | .arithmetic _ _ _ _, _, _ | .branch _ _ _ _, _, _ | .loop _ _ _, _, _
  | .each _ _ _ _, _, _ | .bound _ _ _, _, _ | .call _ _ _ (some _), _, _ => by simp only [infer]
  | .read span name, type, he => by
    rw [infer_read] at he
    rw [infer_read, infer_read]
    cases hl : scope.find? name with
    | none =>
      rw [hl] at he
      cases he
    | some l => rw [h.kept hl]
  | .block _ statements, _, he => by
    rw [infer_block, infer_block, inferLast_of_extends h statements he]
  | .call _ _ args none, _, he => by
    obtain ⟨target, htarget, _⟩ := map_eq_ok.1 he
    rw [infer_call, infer_call, bindCall_of_extends h args htarget]

theorem inferLast_of_extends (h : scope.Extends scope') : ∀ (es : List Expr) {type : StaticType},
    (inferLast ctx scope es).1 = .ok type → inferLast ctx scope' es = inferLast ctx scope es
  | [], _, _ => by simp only [inferLast]
  | [e], _, he => by
    rw [inferLast_singleton, inferLast_singleton, infer_of_extends h e he]
  | e :: f :: es, _, he => by
    rw [inferLast_cons e (List.cons_ne_nil f es), inferLast_cons e (List.cons_ne_nil f es),
      inferLast_of_extends h (f :: es) he]

theorem bindCall_of_extends (h : scope.Extends scope') {span : Span} {name : String} :
    ∀ (args : List Expr) {target : Target}, (bindCall ctx scope span name args).1 = .ok target →
      bindCall ctx scope' span name args = bindCall ctx scope span name args
  | [], _, _ => by simp only [bindCall]
  | a :: as, target, ht => by
    rw [bindCall_cons] at ht
    rw [bindCall_cons, bindCall_cons]
    cases hnamed : ctx.checkNamed name (as.length + 1) span with
    | error e => rfl
    | ok u =>
      rw [hnamed] at ht
      cases hfound : (a.infer ctx scope).1 >>= ctx.calleeBy name (as.length + 1) span a.span with
      | error e =>
        rw [hfound] at ht
        cases ht
      | ok c =>
        rw [hfound] at ht
        obtain ⟨type, htype, _⟩ := bind_eq_ok.1 hfound
        obtain ⟨_, hfields, _⟩ := map_eq_ok.1 ht
        rw [infer_of_extends h a htype, hfound]
        simp only [inferFields_of_extends h _ _ hfields]

theorem inferFields_of_extends (h : scope.Extends scope') {c : Callee} :
    ∀ (fields : List (String × StaticType)) (args : List Expr) {u : Unit},
      (inferFields ctx scope c fields args).1 = .ok u →
        inferFields ctx scope' c fields args = inferFields ctx scope c fields args
  | [], _, _, _ | _ :: _, [], _, _ => by simp only [inferFields]
  | f :: fs, a :: as, u, hu => by
    rw [inferFields_cons] at hu
    rw [inferFields_cons, inferFields_cons]
    cases hfirst : (a.infer ctx scope).1 >>= fun type => c.checkField f type a.span with
    | error e =>
      rw [hfirst] at hu
      cases hu
    | ok u =>
      rw [hfirst] at hu
      obtain ⟨type, htype, _⟩ := bind_eq_ok.1 hfirst
      rw [infer_of_extends h a htype, hfirst]
      simp only [inferFields_of_extends h fs as hu]

end

/-! ### With calls bound before -/

theorem span_infer (e : Expr) : (e.infer ctx scope).2.span = e.span := by
  cases e with
  | read span name => rw [infer_read]
  | call span name args target => cases target <;> rfl
  | _ => rfl

mutual

/-- Typing in a later scope answers and binds the same, whether or not typing in the earlier one has
bound calls before, and also if it was broken off there. -/
theorem infer_infer (h : scope.Extends scope') : ∀ e : Expr,
    ((e.infer ctx scope).2).infer ctx scope' = e.infer ctx scope'
  | .number _ _ | .string _ _ | .text _ _ | .bool _ _ | .write _ _ _ | .arithmetic _ _ _ _
  | .branch _ _ _ _ | .loop _ _ _ | .each _ _ _ _ | .bound _ _ _ | .call _ _ _ (some _) => rfl
  | .read span name => by rw [infer_read, infer_read]
  | .block span statements => by
    rw [infer_block, infer_block, infer_block, inferLast_inferLast h statements]
  | .call span name args none => by
    rw [infer_call]
    cases htarget : (bindCall ctx scope span name args).1 with
    | error e =>
      change (call span name (bindCall ctx scope span name args).2 none).infer ctx scope' = _
      rw [infer_call, infer_call, bindCall_bindCall h args]
    | ok target =>
      rw [infer_call, bindCall_of_extends h args htarget, htarget]
      exact infer_called _ target

theorem inferLast_inferLast (h : scope.Extends scope') : ∀ es : List Expr,
    inferLast ctx scope' (inferLast ctx scope es).2 = inferLast ctx scope' es
  | [] => rfl
  | [e] => by rw [inferLast_singleton, inferLast_singleton, inferLast_singleton, infer_infer h e]
  | e :: f :: es => by
    have hes : (inferLast ctx scope (f :: es)).2 ≠ [] := by
      have hsame : List.Forall₂ (fun _ _ => True) (f :: es) (inferLast ctx scope (f :: es)).2 :=
        forall₂_inferLast (fun _ => trivial) fun _ _ => trivial
      rw [← List.length_pos_iff, ← hsame.length_eq]
      exact Nat.zero_lt_succ _
    rw [inferLast_cons e (List.cons_ne_nil f es), inferLast_cons e hes,
      inferLast_cons e (List.cons_ne_nil f es), inferLast_inferLast h (f :: es)]

theorem bindCall_bindCall (h : scope.Extends scope') {span : Span} {name : String} :
    ∀ args : List Expr, bindCall ctx scope' span name (bindCall ctx scope span name args).2 =
      bindCall ctx scope' span name args
  | [] => rfl
  | a :: as => by
    rw [bindCall_cons a as]
    cases hnamed : ctx.checkNamed name (as.length + 1) span with
    | error e => rfl
    | ok u =>
      cases hfound : (a.infer ctx scope).1 >>= ctx.calleeBy name (as.length + 1) span a.span with
      | error e =>
        simp only
        rw [bindCall_cons, bindCall_cons, hnamed, infer_infer h a, span_infer]
      | ok c =>
        -- The callee is the same in the later scope, so the same fields are filled.
        obtain ⟨type, htype, _⟩ := bind_eq_ok.1 hfound
        simp only
        have hlength : (inferFields ctx scope c c.fields.tail as).2.length = as.length :=
          (forall₂_inferFields (R := fun _ _ => True) (fun _ => trivial)
            fun _ _ => trivial).length_eq.symm
        rw [bindCall_cons, bindCall_cons, hlength, hnamed, infer_infer h a, span_infer,
          infer_of_extends h a htype, hfound]
        simp only [inferFields_inferFields h c.fields.tail as]

theorem inferFields_inferFields (h : scope.Extends scope') {c : Callee} :
    ∀ (fields : List (String × StaticType)) (args : List Expr),
      inferFields ctx scope' c fields (inferFields ctx scope c fields args).2 =
        inferFields ctx scope' c fields args
  | [], _ | _ :: _, [] => by simp only [inferFields]
  | f :: fs, a :: as => by
    rw [inferFields_cons]
    cases hfirst : (a.infer ctx scope).1 >>= fun type => c.checkField f type a.span with
    | error e =>
      simp only
      rw [inferFields_cons, inferFields_cons, infer_infer h a, span_infer]
    | ok u =>
      obtain ⟨type, htype, _⟩ := bind_eq_ok.1 hfirst
      simp only
      rw [inferFields_cons, inferFields_cons, infer_infer h a, span_infer,
        infer_of_extends h a htype, hfirst]
      simp only [inferFields_inferFields h fs as]

end

end Expr

end EventScript
