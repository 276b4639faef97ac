import EventScript.Program.Lowering
import EventScript.Proofs.Binding.Repeated
import EventScript.Proofs.Complaints

/-!
What typing and lowering complain about: a node of the tree that is lowered, or the size of the code,
which has no place. No schema is complained about for its name.
-/
namespace EventScript

namespace Expr

mutual

/-- The places of a node and of all below it. -/
@[simp] def spans : Expr → List Span
  | .number span _ | .string span _ | .text span _ | .bool span _ | .read span _ => [span]
  | .write span _ value => span :: value.spans
  | .arithmetic span _ left right => span :: (left.spans ++ right.spans)
  | .branch span condition thenBody none => span :: (condition.spans ++ thenBody.spans)
  | .branch span condition thenBody (some elseBody) =>
    span :: (condition.spans ++ thenBody.spans ++ elseBody.spans)
  | .loop span count body => span :: (count.spans ++ body.spans)
  | .each span _ sequence body => span :: (sequence.spans ++ body.spans)
  | .block span statements => span :: allSpans statements
  | .bound span _ args => span :: allSpans args
  | .call span _ args _ => span :: allSpans args

@[simp] def allSpans : List Expr → List Span
  | [] => []
  | e :: es => e.spans ++ allSpans es

end

theorem span_mem_spans (e : Expr) : e.span ∈ e.spans := by
  cases e with
  | branch _ _ _ elseBody => cases elseBody <;> simp [span]
  | _ => simp [span]

/-- Every node has a place of this sort. -/
def Lies (S : Span → Prop) (e : Expr) : Prop := ∀ span ∈ e.spans, S span

def AllLie (S : Span → Prop) (es : List Expr) : Prop := ∀ span ∈ allSpans es, S span

variable {S : Span → Prop} {e : Expr} {es : List Expr}

theorem Lies.span (h : e.Lies S) : S e.span := h _ e.span_mem_spans

theorem allLie_cons : AllLie S (e :: es) ↔ e.Lies S ∧ AllLie S es := by
  simp [AllLie, Lies, or_imp, forall_and]

theorem allLie_iff : AllLie S es ↔ ∀ e ∈ es, e.Lies S := by
  induction es with
  | nil => simp [AllLie]
  | cons e es ih => rw [allLie_cons, ih, List.forall_mem_cons]

section

variable {span : Span} {name : String} {left right condition thenBody elseBody body : Expr}

theorem lies_number {n : Number} : (number span n).Lies S ↔ S span := by simp [Lies]

theorem lies_string {s : String} : (string span s).Lies S ↔ S span := by simp [Lies]

theorem lies_text {markup : String} : (text span markup).Lies S ↔ S span := by simp [Lies]

theorem lies_bool {b : Bool} : (bool span b).Lies S ↔ S span := by simp [Lies]

theorem lies_read : (read span name).Lies S ↔ S span := by simp [Lies]

theorem lies_write : (write span name e).Lies S ↔ S span ∧ e.Lies S := by simp [Lies]

theorem lies_arithmetic {op : Arithmetic} :
    (arithmetic span op left right).Lies S ↔ S span ∧ left.Lies S ∧ right.Lies S := by
  simp [Lies, or_imp, forall_and]

theorem lies_branch : (branch span condition thenBody none).Lies S ↔
    S span ∧ condition.Lies S ∧ thenBody.Lies S := by
  simp [Lies, or_imp, forall_and]

theorem lies_branchElse : (branch span condition thenBody (some elseBody)).Lies S ↔
    S span ∧ condition.Lies S ∧ thenBody.Lies S ∧ elseBody.Lies S := by
  simp [Lies, or_imp, forall_and]

theorem lies_loop : (loop span e body).Lies S ↔ S span ∧ e.Lies S ∧ body.Lies S := by
  simp [Lies, or_imp, forall_and]

theorem lies_each : (each span name e body).Lies S ↔ S span ∧ e.Lies S ∧ body.Lies S := by
  simp [Lies, or_imp, forall_and]

theorem lies_block : (block span es).Lies S ↔ S span ∧ AllLie S es := by
  simp [Lies, AllLie]

theorem lies_bound {target : Target} : (bound span target es).Lies S ↔ S span ∧ AllLie S es := by
  simp [Lies, AllLie]

theorem lies_call {target : Option Target} :
    (call span name es target).Lies S ↔ S span ∧ AllLie S es := by
  simp [Lies, AllLie]

end

end Expr

section Binding

variable {S : Span → Prop} {ctx : Context} {scope : Scope} {span : Span}

theorem Callee.failsAt_checkCount {c : Callee} {count : Nat} (hspan : S span) :
    FailsAt S (c.checkCount count span) := by
  unfold checkCount
  split
  · exact failsAt_refuse hspan
  · split
    · exact failsAt_refuse hspan
    · exact failsAt_ok

theorem Callee.failsAt_checkField {c : Callee} {field : String × StaticType} {actual : StaticType}
    (hspan : S span) : FailsAt S (c.checkField field actual span) := by
  unfold checkField
  split
  · exact failsAt_refuse hspan
  · split
    · exact failsAt_ok
    · exact failsAt_refuse hspan

theorem Context.failsAt_callee {name alternate : String} (hspan : S span) :
    FailsAt S (ctx.callee name alternate span) := by
  unfold callee
  split
  · exact failsAt_ok
  · exact failsAt_refuse hspan

theorem Context.failsAt_checkNamed {name : String} {count : Nat} (hspan : S span) :
    FailsAt S (ctx.checkNamed name count span) := by
  unfold checkNamed
  split
  · exact Callee.failsAt_checkCount hspan
  · exact failsAt_ok

theorem Context.failsAt_calleeBy {name : String} {count : Nat} {first : Span} {type : StaticType}
    (hspan : S span) (hfirst : S first) : FailsAt S (ctx.calleeBy name count span first type) := by
  refine failsAt_bind (Context.failsAt_callee hspan) fun c => ?_
  refine failsAt_bind (Callee.failsAt_checkCount hspan) fun _ => failsAt_bind ?_ fun _ => failsAt_ok
  cases c.fields.head? with
  | none => exact failsAt_ok
  | some f => exact Callee.failsAt_checkField hfirst

namespace Expr

mutual

theorem failsAt_infer : ∀ e : Expr, e.Lies S → FailsAt S (e.infer ctx scope).1
  | .number _ _, _ | .string _ _, _ | .text _ _, _ | .bool _ _, _ | .write _ _ _, _
  | .arithmetic _ _ _ _, _ | .branch _ _ _ _, _ | .loop _ _ _, _ | .each _ _ _ _, _
  | .bound _ _ _, _ | .call _ _ _ (some _), _ => failsAt_ok
  | .read span name, h => by
    unfold infer
    split
    · exact failsAt_ok
    · exact failsAt_refuse h.span
  | .block span statements, h => failsAt_inferLast statements (lies_block.1 h).2
  | .call span name args none, h =>
    failsAt_map (failsAt_bindCall h.span args (lies_call.1 h).2)

theorem failsAt_inferLast : ∀ (es : List Expr), AllLie S es →
    FailsAt S (inferLast ctx scope es).1
  | [], _ => failsAt_ok
  | [_], h => failsAt_infer _ (allLie_cons.1 h).1
  | _ :: f :: es, h => failsAt_inferLast (f :: es) (allLie_cons.1 h).2

theorem failsAt_bindCall {span : Span} {name : String} (hspan : S span) :
    ∀ (args : List Expr), AllLie S args → FailsAt S (bindCall ctx scope span name args).1
  | [], _ =>
    failsAt_bind (Context.failsAt_callee hspan) fun _ =>
      failsAt_bind (Callee.failsAt_checkCount hspan) fun _ => failsAt_ok
  | a :: as, h => by
    obtain ⟨ha, has⟩ := allLie_cons.1 h
    rw [bindCall_cons]
    split
    · rename_i hnamed
      exact failsAt_error (Context.failsAt_checkNamed hspan) hnamed
    · split
      · rename_i hfound
        exact failsAt_error (failsAt_bind (failsAt_infer a ha)
          fun _ => Context.failsAt_calleeBy hspan ha.span) hfound
      · exact failsAt_map (failsAt_inferFields _ as has)

theorem failsAt_inferFields {c : Callee} : ∀ (fields : List (String × StaticType))
    (args : List Expr), AllLie S args → FailsAt S (inferFields ctx scope c fields args).1
  | [], [], _ | [], _ :: _, _ | _ :: _, [], _ => failsAt_ok
  | f :: fs, a :: as, h => by
    obtain ⟨ha, has⟩ := allLie_cons.1 h
    unfold inferFields
    simp only
    split
    · rename_i hfirst
      exact failsAt_error
        (failsAt_bind (failsAt_infer a ha) fun type => Callee.failsAt_checkField ha.span) hfirst
    · exact failsAt_inferFields fs as has

end

end Expr

end Binding

namespace Lower

variable {α β : Type} {S : Span → Prop} {span : Span}

/-- All that goes wrong, in whatever state it begins, is about a place. -/
def FailsAt (S : Span → Prop) (m : Lower α) : Prop := ∀ s, EventScript.FailsAt S (m s)

theorem failsAt_pure {a : α} : FailsAt S (pure a) := fun _ => failsAt_ok

theorem failsAt_bind {m : Lower β} {f : β → Lower α} (hm : FailsAt S m)
    (hf : ∀ b, FailsAt S (f b)) : FailsAt S (m >>= f) :=
  fun s => EventScript.failsAt_bind (hm s) fun r => hf r.1 r.2

theorem failsAt_lift {x : Compiled α} (hx : EventScript.FailsAt S x) :
    FailsAt S (liftM x : Lower α) :=
  fun _ => EventScript.failsAt_bind hx fun _ => failsAt_ok

theorem failsAt_refuse {complaint : CompileError.Complaint} (hspan : S span)
    (hkind : complaint.kind ≠ .duplicateSchema := by simp [CompileError.Complaint.kind]) :
    FailsAt S (liftM (refuse complaint span : Compiled α) : Lower α) :=
  failsAt_lift (EventScript.failsAt_refuse hspan hkind)

/-- A check comes first. -/
theorem failsAt_check {c : Prop} [Decidable c] {m : Lower Unit} {f : Unit → Lower α}
    (hm : FailsAt S m) (hf : ∀ u, FailsAt S (f u)) :
    FailsAt S (if c then m >>= f else f ()) := by
  split
  · exact failsAt_bind hm hf
  · exact hf ()

theorem failsAt_get : FailsAt S (get : Lower Lowering) := fun _ => failsAt_ok

theorem failsAt_find? {name : String} : FailsAt S (find? name) := fun _ => failsAt_ok

theorem failsAt_declare {name : String} {type : StaticType} (hspan : S span) :
    FailsAt S (declare name type span) := by
  rintro ⟨pools, scope⟩
  simp only [declare]
  split
  · exact failsAt_ok
  · exact EventScript.failsAt_refuse hspan

theorem failsAt_temporary (hspan : S span) : FailsAt S (temporary span) := by
  rintro ⟨pools, scope⟩
  simp only [temporary]
  split
  · exact failsAt_ok
  · exact EventScript.failsAt_refuse hspan

theorem failsAt_literal {l : Literal} (hspan : S span) : FailsAt S (literal l span) := by
  rintro ⟨pools, scope⟩
  refine failsAt_map ?_
  unfold Pools.literal
  split
  · exact failsAt_ok
  · simp only
    split
    · exact failsAt_ok
    · exact EventScript.failsAt_refuse hspan

theorem failsAt_host {name : String} {call : HostFunction} (hspan : S span) :
    FailsAt S (host name call span) := by
  rintro ⟨pools, scope⟩
  refine failsAt_map ?_
  unfold Pools.host
  split
  · exact failsAt_ok
  · simp only
    split
    · exact failsAt_ok
    · exact EventScript.failsAt_refuse hspan

theorem failsAt_pushLiteral {l : Literal} (hspan : S span) : FailsAt S (pushLiteral l span) :=
  failsAt_bind (failsAt_literal hspan) fun _ => failsAt_pure

theorem failsAt_checkOffset {offset : Nat} (hS : Span.Places S) :
    FailsAt S (liftM (checkOffset offset) : Lower Unit) := by
  refine failsAt_lift ?_
  unfold checkOffset
  split
  · exact failsAt_ok
  · exact EventScript.failsAt_refuse hS.none

theorem failsAt_numberExpectation {what : String} {type : StaticType} (hspan : S span) :
    FailsAt S (liftM (numberExpectation what type span) : Lower Code) := by
  refine failsAt_lift ?_
  unfold numberExpectation
  split
  · exact failsAt_ok
  · exact EventScript.failsAt_refuse hspan

end Lower

section Lowering

variable {S : Span → Prop} {ctx : Context}

theorem Target.failsAt_lower {span : Span} {argc : Nat} (hspan : S span) (target : Target) :
    Lower.FailsAt S (target.lower ctx span argc) := by
  cases target with
  | operation op =>
    simp only [lower]
    refine Lower.failsAt_check ?_ fun _ => ?_
    · exact Lower.failsAt_refuse hspan
    · split
      · exact Lower.failsAt_pure
      · exact Lower.failsAt_bind (Lower.failsAt_host hspan) fun _ => Lower.failsAt_pure
  | schema name params returns =>
    simp only [lower]
    split
    · exact Lower.failsAt_refuse hspan
    · refine Lower.failsAt_check ?_ fun _ => Lower.failsAt_pure
      exact Lower.failsAt_refuse hspan

namespace Expr

theorem failsAt_targetOf {scope : Scope} {span : Span} {name : String} {args : List Expr}
    (hspan : S span) (hargs : AllLie S args) (target : Option Target) :
    FailsAt S (targetOf ctx scope span name args target) := by
  cases target with
  | some target => exact failsAt_ok
  | none => exact failsAt_bindCall hspan args hargs

mutual

theorem failsAt_lower (hS : Span.Places S) : ∀ (e : Expr) (start : Nat), e.Lies S →
    Lower.FailsAt S (e.lower ctx start)
  | .number span n, start, h | .string span s, start, h | .bool span b, start, h => by
    unfold lower
    exact Lower.failsAt_bind (Lower.failsAt_pushLiteral h.span) fun _ => Lower.failsAt_pure
  | .text span markup, start, h => by
    unfold lower
    split
    · exact Lower.failsAt_bind (Lower.failsAt_pushLiteral h.span) fun _ => Lower.failsAt_pure
    · exact Lower.failsAt_refuse h.span
  | .read span name, start, h => by
    unfold lower
    refine Lower.failsAt_bind Lower.failsAt_find? fun l? => ?_
    split
    · exact Lower.failsAt_pure
    · exact Lower.failsAt_refuse h.span
  | .write span name value, start, h => by
    obtain ⟨hspan, hvalue⟩ := lies_write.1 h
    unfold lower
    refine Lower.failsAt_bind (failsAt_lower hS value start hvalue) fun (type, code) => ?_
    refine Lower.failsAt_check ?_ fun _ => ?_
    · exact Lower.failsAt_refuse hvalue.span
    refine Lower.failsAt_bind Lower.failsAt_find? fun l? => ?_
    have hrest (check : Code) : Lower.FailsAt S (do
        let slot ← Lower.declare name type span
        return (StaticType.void, code ++ check ++ #[Instruction.storeLocal slot])) :=
      Lower.failsAt_bind (Lower.failsAt_declare hspan) fun _ => Lower.failsAt_pure
    simp only
    split
    · split
      · exact Lower.failsAt_bind Lower.failsAt_pure hrest
      · exact Lower.failsAt_bind (Lower.failsAt_refuse hvalue.span) hrest
    · exact Lower.failsAt_bind Lower.failsAt_pure hrest
  | .arithmetic span op left right, start, h => by
    obtain ⟨_, hleft, hright⟩ := lies_arithmetic.1 h
    unfold lower
    refine Lower.failsAt_bind (failsAt_lower hS left start hleft) fun (type, code) => ?_
    refine Lower.failsAt_bind (Lower.failsAt_numberExpectation hleft.span) fun check => ?_
    refine Lower.failsAt_bind (failsAt_lower hS right _ hright) fun (type, code) => ?_
    exact Lower.failsAt_bind (Lower.failsAt_numberExpectation hright.span) fun _ =>
      Lower.failsAt_pure
  | .branch span condition thenBody none, start, h => by
    obtain ⟨_, hcondition, hthen⟩ := lies_branch.1 h
    unfold lower
    refine Lower.failsAt_bind (failsAt_lower hS condition start hcondition) fun (type, test) => ?_
    refine Lower.failsAt_check ?_ fun _ => ?_
    · exact Lower.failsAt_refuse hcondition.span
    refine Lower.failsAt_bind (failsAt_lower hS thenBody _ hthen) fun (type, code) => ?_
    exact Lower.failsAt_bind (Lower.failsAt_checkOffset hS) fun _ => Lower.failsAt_pure
  | .branch span condition thenBody (some elseBody), start, h => by
    obtain ⟨_, hcondition, hthen, helse⟩ := lies_branchElse.1 h
    unfold lower
    refine Lower.failsAt_bind (failsAt_lower hS condition start hcondition) fun (type, test) => ?_
    refine Lower.failsAt_check ?_ fun _ => ?_
    · exact Lower.failsAt_refuse hcondition.span
    refine Lower.failsAt_bind (failsAt_lower hS thenBody _ hthen) fun (type, code) => ?_
    refine Lower.failsAt_bind (Lower.failsAt_checkOffset hS) fun _ => ?_
    refine Lower.failsAt_bind (failsAt_lower hS elseBody _ helse) fun (type, code) => ?_
    exact Lower.failsAt_bind (Lower.failsAt_checkOffset hS) fun _ => Lower.failsAt_pure
  | .loop span count body, start, h => by
    obtain ⟨hspan, hcount, hbody⟩ := lies_loop.1 h
    unfold lower
    refine Lower.failsAt_bind (failsAt_lower hS count start hcount) fun (type, code) => ?_
    refine Lower.failsAt_bind (Lower.failsAt_numberExpectation hcount.span) fun check => ?_
    refine Lower.failsAt_bind (Lower.failsAt_temporary hspan) fun counter => ?_
    refine Lower.failsAt_bind (Lower.failsAt_literal hspan) fun one => ?_
    refine Lower.failsAt_bind (Lower.failsAt_checkOffset hS) fun _ => ?_
    refine Lower.failsAt_bind (failsAt_lower hS body _ hbody) fun (type, code) => ?_
    exact Lower.failsAt_bind (Lower.failsAt_checkOffset hS) fun _ => Lower.failsAt_pure
  | .each span name sequence body, start, h => by
    obtain ⟨hspan, hsequence, hbody⟩ := lies_each.1 h
    unfold lower
    refine Lower.failsAt_bind (failsAt_lower hS sequence start hsequence) fun (type, code) => ?_
    refine Lower.failsAt_check ?_ fun _ => ?_
    · exact Lower.failsAt_refuse hsequence.span
    refine Lower.failsAt_bind (Lower.failsAt_temporary hspan) fun items => ?_
    refine Lower.failsAt_bind (Lower.failsAt_temporary hspan) fun index => ?_
    refine Lower.failsAt_bind (Lower.failsAt_declare hspan) fun item => ?_
    refine Lower.failsAt_bind (Lower.failsAt_literal hspan) fun first => ?_
    refine Lower.failsAt_bind (Lower.failsAt_literal hspan) fun one => ?_
    refine Lower.failsAt_bind (Lower.failsAt_checkOffset hS) fun _ => ?_
    refine Lower.failsAt_bind (failsAt_lower hS body _ hbody) fun (type, code) => ?_
    exact Lower.failsAt_bind (Lower.failsAt_checkOffset hS) fun _ => Lower.failsAt_pure
  | .block span statements, start, h => by
    unfold lower
    exact failsAt_lowerStatements hS statements start .void #[] (lies_block.1 h).2
  | .bound span target args, start, h => by
    obtain ⟨hspan, hargs⟩ := lies_bound.1 h
    unfold lower
    refine Lower.failsAt_check ?_ fun _ => ?_
    · exact Lower.failsAt_refuse hspan
    refine Lower.failsAt_bind (failsAt_lowerArguments hS target.params args start #[] hargs)
      fun code => ?_
    exact Lower.failsAt_bind (Target.failsAt_lower hspan target) fun _ => Lower.failsAt_pure
  | .call span name args target, start, h => by
    obtain ⟨hspan, hargs⟩ := lies_call.1 h
    unfold lower
    refine Lower.failsAt_bind Lower.failsAt_get fun s => ?_
    refine Lower.failsAt_bind (Lower.failsAt_lift (failsAt_targetOf hspan hargs target))
      fun target => ?_
    refine Lower.failsAt_check ?_ fun _ => ?_
    · exact Lower.failsAt_refuse hspan
    refine Lower.failsAt_bind (failsAt_lowerArguments hS target.params args start #[] hargs)
      fun code => ?_
    exact Lower.failsAt_bind (Target.failsAt_lower hspan target) fun _ => Lower.failsAt_pure

theorem failsAt_lowerStatements (hS : Span.Places S) : ∀ (es : List Expr) (start : Nat)
    (last : StaticType) (before : Code), AllLie S es →
      Lower.FailsAt S (lowerStatements ctx start last before es)
  | [], _, _, _, _ => Lower.failsAt_pure
  | e :: es, start, last, before, h => by
    obtain ⟨he, hes⟩ := allLie_cons.1 h
    unfold lowerStatements
    exact Lower.failsAt_bind (failsAt_lower hS e _ he) fun (type, code) =>
      failsAt_lowerStatements hS es start type _ hes

theorem failsAt_lowerArguments (hS : Span.Places S) : ∀ (params : List StaticType)
    (es : List Expr) (start : Nat) (before : Code), AllLie S es →
      Lower.FailsAt S (lowerArguments ctx start before params es)
  | [], [], _, _, _ | [], _ :: _, _, _, _ | _ :: _, [], _, _, _ => Lower.failsAt_pure
  | expected :: params, e :: es, start, before, h => by
    obtain ⟨he, hes⟩ := allLie_cons.1 h
    unfold lowerArguments
    refine Lower.failsAt_bind (failsAt_lower hS e _ he) fun (type, code) => ?_
    refine Lower.failsAt_check ?_ fun _ => Lower.failsAt_check ?_ fun _ => ?_
    · exact Lower.failsAt_refuse he.span
    · exact Lower.failsAt_refuse he.span
    · exact failsAt_lowerArguments hS params es start _ hes

end

end Expr

/-- Every place in a schema is of this sort. -/
structure Schema.Lies (S : Span → Prop) (schema : Schema) : Prop where
  span : S schema.span
  params : ∀ p ∈ schema.params, S p.span
  body : schema.body.Lies S

namespace Definition

variable {d : Definition}

theorem failsAt_declareParams : ∀ {ps : List Param}, (∀ p ∈ ps, S p.span) →
    Lower.FailsAt S (declareParams ps)
  | [], _ => Lower.failsAt_pure
  | p :: ps, h => by
    obtain ⟨hp, hps⟩ := List.forall_mem_cons.1 h
    unfold declareParams
    refine Lower.failsAt_bind Lower.failsAt_find? fun l? => Lower.failsAt_check ?_ fun _ => ?_
    · exact Lower.failsAt_refuse hp
    · exact Lower.failsAt_bind (Lower.failsAt_declare hp) fun _ => failsAt_declareParams hps

theorem failsAt_conversion {found : StaticType} {span : Span} (hspan : S span) :
    FailsAt S (d.conversion found span) := by
  simp only [conversion]
  split
  · exact failsAt_refuse hspan
  · split
    · exact failsAt_ok
    · split
      · exact failsAt_ok
      · exact failsAt_refuse hspan

theorem failsAt_lowerBody (hS : Span.Places S) (h : d.schema.Lies S) :
    Lower.FailsAt S (d.lowerBody ctx) := by
  have hbody := h.body
  unfold lowerBody
  split
  · rename_i span statements hblock
    rw [hblock] at hbody
    have hstatements := (Expr.lies_block.1 hbody).2
    refine Lower.failsAt_bind (Expr.failsAt_lowerStatements hS statements _ _ _ hstatements)
      fun (type, code) => ?_
    simp only
    split
    · exact Lower.failsAt_pure
    · refine Lower.failsAt_bind (Lower.failsAt_lift (failsAt_conversion ?_)) fun _ =>
        Lower.failsAt_pure
      cases hlast : statements.getLast? with
      | none => exact hbody.span
      | some e => exact (Expr.allLie_iff.1 hstatements e (List.mem_of_getLast? hlast)).span
  · exact Lower.failsAt_refuse hbody.span

theorem failsAt_lower (hS : Span.Places S) (h : d.schema.Lies S) :
    Lower.FailsAt S (d.lower ctx) :=
  Lower.failsAt_bind (failsAt_declareParams h.params) fun _ =>
    Lower.failsAt_bind (failsAt_lowerBody hS h) fun _ =>
      Lower.failsAt_bind Lower.failsAt_get fun _ => Lower.failsAt_pure

/-- Only the name of the source is added. -/
theorem exists_of_lowerWith {pools : Pools} {e : CompileError} (hS : Span.Places S)
    (hd : d.schema.Lies S) (h : d.lowerWith ctx pools = .error e) :
    ∃ e' : CompileError, e'.At S ∧ e = e'.inSource d.label := by
  obtain ⟨e', he, rfl⟩ := mapError_eq_error.1 h
  exact ⟨e', failsAt_lower hS hd _ e' (map_eq_error.1 he), rfl⟩

theorem exists_of_lowerAll_error {ds : List Definition} {pools : Pools} {routines : Array Routine}
    {e : CompileError} (h : lowerAll ctx pools routines ds = .error e) :
    ∃ d ∈ ds, ∃ pools, d.lowerWith ctx pools = .error e := by
  induction ds generalizing pools routines with
  | nil => cases h
  | cons d ds ih =>
    rcases bind_eq_error.1 h with h | ⟨r, _, h⟩
    · exact ⟨d, by simp, pools, h⟩
    · obtain ⟨d, hd, hpools⟩ := ih h
      exact ⟨d, by simp [hd], hpools⟩

end Definition

end Lowering

end EventScript
