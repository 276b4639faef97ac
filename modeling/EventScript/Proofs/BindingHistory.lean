import EventScript.Proofs.Binding.Repeated

/-!
Calls are bound once and for all. Whatever is asked of a tree and of its parts, in whatever scopes
and contexts and with whatever success, a call keeps the target that it was first bound to, a call
that cannot be bound stays free, and a question asked again has the same answer. What a call is
bound to is its target; its arguments stay parts of the tree and can be asked about as before.
-/
namespace EventScript

namespace Expr

/-! ### Places in a tree -/

/-- The parts of a node, in their order. -/
def children : Expr → List Expr
  | .number _ _ | .string _ _ | .text _ _ | .bool _ _ | .read _ _ => []
  | .write _ _ value => [value]
  | .arithmetic _ _ left right => [left, right]
  | .branch _ condition thenBody none => [condition, thenBody]
  | .branch _ condition thenBody (some elseBody) => [condition, thenBody, elseBody]
  | .loop _ count body => [count, body]
  | .each _ _ sequence body => [sequence, body]
  | .block _ statements => statements
  | .bound _ _ args | .call _ _ args _ => args

/-- The node with other parts, if they are as many. -/
def withChildren : Expr → List Expr → Expr
  | .write span name _, [value] => .write span name value
  | .arithmetic span op _ _, [left, right] => .arithmetic span op left right
  | .branch span _ _ none, [condition, thenBody] => .branch span condition thenBody none
  | .branch span _ _ (some _), [condition, thenBody, elseBody] =>
    .branch span condition thenBody (some elseBody)
  | .loop span _ _, [count, body] => .loop span count body
  | .each span name _ _, [sequence, body] => .each span name sequence body
  | .block span _, statements => .block span statements
  | .bound span target _, args => .bound span target args
  | .call span name _ target, args => .call span name args target
  | e, _ => e

/-- The part at a place: the way down to it, by the positions among the parts. -/
def at? (e : Expr) : (place : List Nat) → Option Expr
  | [] => some e
  | i :: place => e.children[i]?.bind fun part => part.at? place

/-- The tree with the part at a place changed. -/
def change (f : Expr → Expr) : (place : List Nat) → Expr → Expr
  | [], e => f e
  | i :: place, e => e.withChildren (e.children.modify i (change f place))

/-- What a call is bound to. -/
def target? : Expr → Option Target
  | .call _ _ _ target => target
  | _ => none

/-- What the call at a place is bound to. -/
def bindingAt? (e : Expr) (place : List Nat) : Option Target := (e.at? place).bind target?

variable {e e' : Expr} {es : List Expr} {f : Expr → Expr} {place : List Nat}

theorem children_withChildren (h : es.length = e.children.length) :
    (e.withChildren es).children = es := by
  cases e with
  | number | string | text | bool | read => exact (List.length_eq_zero_iff.1 h).symm
  | write =>
    obtain ⟨_, rfl⟩ := List.length_eq_one_iff.1 h
    rfl
  | arithmetic | loop | each =>
    obtain ⟨_, _, rfl⟩ := List.length_eq_two.1 h
    rfl
  | branch _ _ _ elseBody =>
    cases elseBody with
    | none =>
      obtain ⟨_, _, rfl⟩ := List.length_eq_two.1 h
      rfl
    | some =>
      obtain ⟨_, _, _, rfl⟩ := List.length_eq_three.1 h
      rfl
  | block | bound | call => rfl

theorem target?_withChildren (e : Expr) (es : List Expr) :
    (e.withChildren es).target? = e.target? := by
  unfold withChildren
  split <;> rfl

theorem children_change (i : Nat) : (e.change f (i :: place)).children =
    e.children.modify i (change f place) :=
  children_withChildren (List.length_modify ..)

theorem at?_change_self (e : Expr) : (e.change f place).at? place = (e.at? place).map f := by
  induction place generalizing e with
  | nil => rfl
  | cons i place ih =>
    rw [at?, at?, children_change, List.getElem?_modify_eq]
    cases e.children[i]? with
    | none => rfl
    | some part => exact ih part

/-! ### Keeping bindings -/

/-- Every call that is bound in the one tree is bound to the same in the other. -/
def Keeps (e e' : Expr) : Prop :=
  ∀ place target, e.bindingAt? place = some target → e'.bindingAt? place = some target

theorem Keeps.refl (e : Expr) : e.Keeps e := fun _ _ h => h

theorem Keeps.trans {e'' : Expr} (h : e.Keeps e') (h' : e'.Keeps e'') : e.Keeps e'' :=
  fun place target ht => h' place target (h place target ht)

/-- Bindings are kept if the node keeps its own and the parts keep theirs. -/
theorem Keeps.of_children (htarget : ∀ target, e.target? = some target → e'.target? = some target)
    (hparts : List.Forall₂ Keeps e.children e'.children) : e.Keeps e' := by
  intro place target h
  cases place with
  | nil => exact htarget target h
  | cons i place =>
    rw [bindingAt?, at?, Option.bind_assoc] at h ⊢
    obtain ⟨part, hpart, h⟩ := Option.bind_eq_some_iff.1 h
    obtain ⟨part', hpart', hkeeps⟩ := exists_getElem?_of_forall₂ hparts hpart
    rw [hpart']
    exact hkeeps place target h

theorem forall₂_modify {R : Expr → Expr → Prop} (hrefl : ∀ e, R e e) (hf : ∀ e, R e (f e))
    (es : List Expr) (i : Nat) : List.Forall₂ R es (es.modify i f) := by
  induction es generalizing i with
  | nil => cases i <;> exact .nil
  | cons e es ih =>
    cases i with
    | zero => exact .cons (hf e) (List.forall₂_same.2 fun e _ => hrefl e)
    | succ i => exact .cons (hrefl e) (ih i)

/-- A change of a part that keeps its bindings keeps those of the tree. -/
theorem keeps_change (hf : ∀ e, Keeps e (f e)) (place : List Nat) (e : Expr) :
    e.Keeps (e.change f place) := by
  induction place generalizing e with
  | nil => exact hf e
  | cons i place ih =>
    refine .of_children (fun target h => ?_) ?_
    · rw [change, target?_withChildren]
      exact h
    · rw [children_change]
      exact forall₂_modify .refl ih e.children i

section

variable {ctx : Context} {scope : Scope}

mutual

/-- Typing binds what is free and keeps what is bound. -/
theorem keeps_infer : ∀ e : Expr, e.Keeps (e.infer ctx scope).2
  | .number _ _ | .string _ _ | .text _ _ | .bool _ _ | .write _ _ _ | .arithmetic _ _ _ _
  | .branch _ _ _ _ | .loop _ _ _ | .each _ _ _ _ | .bound _ _ _ | .call _ _ _ (some _) =>
    .refl _
  | .read span name => by
    rw [infer_read]
    exact .refl _
  | .block _ statements =>
    .of_children (fun _ h => nomatch h) (forall₂_inferLast .refl (keeps_infer_mem statements))
  | .call _ _ args none =>
    .of_children (fun _ h => nomatch h) (forall₂_bindCall .refl (keeps_infer_mem args))

theorem keeps_infer_mem : ∀ es : List Expr, ∀ e ∈ es, e.Keeps (e.infer ctx scope).2
  | [] => nofun
  | e :: es => List.forall_mem_cons.2 ⟨keeps_infer e, keeps_infer_mem es⟩

end

end

/-! ### Questions -/

/-- What can be asked of a node. -/
inductive Query where
  | typeOf (ctx : Context) (scope : Scope)
  /-- What a call is bound to; complaints about the call are about `span`. -/
  | resolve (ctx : Context) (scope : Scope) (span : Span)

inductive Answer where
  | type (answer : Compiled StaticType)
  | target (answer : Compiled Target)
  /-- Only calls can be resolved. -/
  | noCall

/-- The answer, and the node with what has been bound for it. -/
def Query.ask : Query → Expr → Answer × Expr
  | .typeOf ctx scope, e => (.type (e.infer ctx scope).1, (e.infer ctx scope).2)
  | .resolve _ _ _, .call span name args (some target) =>
    (.target (.ok target), .call span name args (some target))
  | .resolve ctx scope span, .call own name args none =>
    let (target, args) := bindCall ctx scope span name args
    (.target target, .call own name args target.toOption)
  | .resolve _ _ _, e => (.noCall, e)

/-- A question about the part at a place. -/
structure Inquiry where
  place : List Nat
  query : Query

/-- There is no answer if there is no such place. -/
def answer? (e : Expr) (q : Inquiry) : Option Answer :=
  (e.at? q.place).map fun f => (q.query.ask f).1

/-- The tree after some questions, one after the other. -/
def after (e : Expr) (qs : List Inquiry) : Expr :=
  qs.foldl (fun e q => e.change (fun f => (q.query.ask f).2) q.place) e

variable {q : Query} {ctx : Context} {scope : Scope} {span : Span} {target : Target}

theorem keeps_ask (q : Query) (e : Expr) : e.Keeps (q.ask e).2 := by
  cases q with
  | typeOf ctx scope => exact keeps_infer e
  | resolve ctx scope span =>
    cases e with
    | call own name args target =>
      cases target with
      | none => exact .of_children (fun _ h => nomatch h) (forall₂_bindCall .refl fun e _ => keeps_infer e)
      | some target => exact .refl _
    | _ => exact .refl _

/-- A question asked again at once has the same answer, although the first time may have bound part
of the tree. -/
theorem ask_ask (q : Query) (e : Expr) : (q.ask (q.ask e).2).1 = (q.ask e).1 := by
  cases q with
  | typeOf ctx scope =>
    exact congrArg (fun r : Compiled StaticType × Expr => Answer.type r.1)
      (infer_infer (.refl scope) e)
  | resolve ctx scope span =>
    cases e with
    | call own name args target =>
      cases target with
      | none =>
        have hbound : bindCall ctx scope span name (bindCall ctx scope span name args).2 =
            bindCall ctx scope span name args := bindCall_bindCall (.refl scope) args
        simp only [Query.ask]
        cases htarget : (bindCall ctx scope span name args).1 with
        | error e => simp only [Except.toOption, hbound, htarget]
        | ok target => simp only [Except.toOption]
      | some target => rfl
    | _ => rfl

theorem ask_resolve_of_target? (h : e.target? = some target) :
    (Query.resolve ctx scope span).ask e = (.target (.ok target), e) := by
  cases e with
  | call own name args target' =>
    cases h
    rfl
  | _ => cases h

/-- A call is bound by being resolved just if that succeeds. -/
theorem target?_ask_resolve {answer : Compiled Target}
    (h : ((Query.resolve ctx scope span).ask e).1 = .target answer) :
    ((Query.resolve ctx scope span).ask e).2.target? = answer.toOption := by
  cases e with
  | call own name args target =>
    cases target with
    | none =>
      cases h
      rfl
    | some target =>
      cases h
      rfl
  | _ => cases h

theorem after_append (e : Expr) (qs qs' : List Inquiry) :
    e.after (qs ++ qs') = (e.after qs).after qs' := List.foldl_append

theorem keeps_after (e : Expr) (qs : List Inquiry) : e.Keeps (e.after qs) := by
  induction qs generalizing e with
  | nil => exact .refl e
  | cons q qs ih => exact (keeps_change (fun f => keeps_ask q.query f) q.place e).trans (ih _)

theorem at?_after_self (e : Expr) (q : Inquiry) :
    (e.after [q]).at? q.place = (e.at? q.place).map fun f => (q.query.ask f).2 :=
  at?_change_self e

/-- What holds of a tree whatever is asked of it. -/
structure BindsOnce (e : Expr) : Prop where
  stays : ∀ earlier later place target, (e.after earlier).bindingAt? place = some target →
    (e.after (earlier ++ later)).bindingAt? place = some target
  answered : ∀ earlier later place target, (e.after earlier).bindingAt? place = some target →
    ∀ ctx scope span, (e.after (earlier ++ later)).answer? ⟨place, .resolve ctx scope span⟩ =
      some (.target (.ok target))
  succeeded : ∀ earlier place ctx scope span target,
    (e.after earlier).answer? ⟨place, .resolve ctx scope span⟩ = some (.target (.ok target)) →
      (e.after (earlier ++ [⟨place, .resolve ctx scope span⟩])).bindingAt? place = some target
  failed : ∀ earlier place ctx scope span error,
    (e.after earlier).answer? ⟨place, .resolve ctx scope span⟩ = some (.target (.error error)) →
      (e.after (earlier ++ [⟨place, .resolve ctx scope span⟩])).bindingAt? place = none
  repeated : ∀ earlier q, (e.after (earlier ++ [q])).answer? q = (e.after earlier).answer? q

theorem answer?_resolve_of_bindingAt? (h : e.bindingAt? place = some target) :
    e.answer? ⟨place, .resolve ctx scope span⟩ = some (.target (.ok target)) := by
  obtain ⟨f, hf, htarget⟩ := Option.bind_eq_some_iff.1 h
  rw [answer?, hf, Option.map_some, ask_resolve_of_target? htarget]

theorem bindingAt?_after_resolve {answer : Compiled Target}
    (h : e.answer? ⟨place, .resolve ctx scope span⟩ = some (.target answer)) :
    (e.after [⟨place, .resolve ctx scope span⟩]).bindingAt? place = answer.toOption := by
  obtain ⟨f, hf, hanswer⟩ := Option.map_eq_some_iff.1 h
  rw [bindingAt?, at?_after_self e ⟨place, _⟩, hf]
  exact target?_ask_resolve hanswer

theorem answer?_after_self (e : Expr) (q : Inquiry) : (e.after [q]).answer? q = e.answer? q := by
  rw [answer?, answer?, at?_after_self]
  cases e.at? q.place with
  | none => rfl
  | some f => exact congrArg some (ask_ask q.query f)

/-- A call keeps its first target and answers with it from then on, failures bind nothing, and a
question asked again at once has the same answer, errors included. -/
theorem binds_once (e : Expr) : e.BindsOnce where
  stays earlier later place target h := by
    rw [after_append]
    exact keeps_after _ later place target h
  answered earlier later place target h ctx scope span := by
    rw [after_append]
    exact answer?_resolve_of_bindingAt? (keeps_after _ later place target h)
  succeeded earlier place ctx scope span target h := by
    rw [after_append]
    exact bindingAt?_after_resolve h
  failed earlier place ctx scope span error h := by
    rw [after_append]
    exact bindingAt?_after_resolve h
  repeated earlier q := by
    rw [after_append]
    exact answer?_after_self _ q

end Expr

end EventScript
