import EventScript.Proofs.Binding.Filling
import EventScript.Proofs.Lowering.Rebinding

/-!
Typing and lowering agree. Typing looks at no more than it needs; what it answers is the type in
which the tree is lowered, so arguments that typing has accepted are accepted again.
-/
namespace EventScript

/-- What typing answers for a phrase. -/
def Phrase.typeOf (ctx : Context) (scope : Scope) : Phrase → Compiled StaticType
  | .expr e | .operand _ e => e.typeOf ctx scope
  | .statements last [] => .ok last
  | .statements _ (e :: es) => (Expr.inferLast ctx scope (e :: es)).1
  | .body _ | .arguments _ _ => .ok .void

/-- A phrase is lowered in the type that it had in the scope, or in an earlier one. -/
theorem Lowered.type_eq {ctx : Context} {start : Nat} {phrase : Phrase} {s s' : Lowering}
    {found : StaticType} {code : Code} {marks : List Nat}
    (h : Lowered ctx start phrase s found code marks s') {scope : Scope} {type : StaticType}
    (hs : scope.Extends s.scope) (ht : phrase.typeOf ctx scope = .ok type) : found = type := by
  induction h generalizing type with
  | literal value =>
    cases Expr.isLiteral_of_literal? value <;> cases ht <;> rfl
  | @read _ _ name _ l hl =>
    rw [Phrase.typeOf, Expr.typeOf, Expr.infer_read] at ht
    cases hl' : scope.find? name with
    | none =>
      rw [hl'] at ht
      cases ht
    | some l' =>
      rw [hl'] at ht
      cases hl.symm.trans (hs.kept hl')
      cases ht
      rfl
  | write | arithmetic | branch | branchElse | loop | each | body | noStatements | noArguments
  | arguments =>
    cases ht
    rfl
  | @block _ _ es _ _ _ _ _ _ ih =>
    cases es with
    | nil => exact ih hs ht
    | cons => exact ih hs ht
  | call bound =>
    -- The scope has only grown, so the call is bound to what typing found for it.
    obtain ⟨target', htarget, rfl⟩ := map_eq_ok.1 ht
    rw [Expr.targetOf, Expr.bindCall_of_extends hs _ htarget] at bound
    cases bound.symm.trans htarget
    rfl
  | operand _ _ _ ih => exact ih hs ht
  | @statements _ _ e es _ _ _ _ _ _ _ _ _ first _ ih₁ ih₂ =>
    cases es with
    | nil => exact ih₂ (hs.trans first.extends) (by rw [Phrase.typeOf, ih₁ hs ht])
    | cons f es =>
      rw [Phrase.typeOf, Expr.inferLast_cons e (List.cons_ne_nil f es)] at ht
      exact ih₂ (hs.trans first.extends) ht

/-- What can be wrong with a call whose arguments are in place. -/
def Target.Unmakeable (ctx : Context) (passed : Nat) (target : Target) :
    CompileError.Complaint → Prop
  | .tooManyPassed => maxPassed < passed
  | .tooManyHostOperations => ∃ op call, target = .operation op ∧ op.action = .host call
  | .noSuchSchema name =>
    ctx.schemas.position? name = none ∧ ∃ params returns, target = .schema name params returns
  | _ => False

namespace Lower

variable {α β : Type} {s : Lowering} {e : CompileError}

theorem bind_eq_error {x : Lower α} {f : α → Lower β} : (x >>= f) s = .error e ↔
    x s = .error e ∨ ∃ a s', x s = .ok (a, s') ∧ f a s' = .error e := by
  change (x s >>= fun r => f r.1 r.2) = .error e ↔ _
  rw [EventScript.bind_eq_error, Prod.exists]

theorem lift_eq_error {x : Compiled α} :
    (liftM x : Lower α) s = .error e ↔ x = .error e := by
  cases x with
  | error e' =>
    change Except.error e' = Except.error e ↔ _
    rw [Except.error.injEq, Except.error.injEq]
  | ok a => exact ⟨nofun, nofun⟩

/-- Nothing comes after a refusal. -/
theorem refuse_bind_eq_error {complaint : CompileError.Complaint} {span : Span} {f : α → Lower β} :
    ((liftM (refuse complaint span : Compiled α) : Lower α) >>= f) s = .error e ↔
      e = ⟨complaint, span, none⟩ := by
  change Except.error ⟨complaint, span, none⟩ = Except.error e ↔ _
  rw [Except.error.injEq, eq_comm]

theorem host_eq_error {name : String} {call : HostFunction} {span : Span}
    (h : Lower.host name call span s = .error e) : e = ⟨.tooManyHostOperations, span, none⟩ := by
  obtain ⟨⟨literals, hosts⟩, scope⟩ := s
  replace h := map_eq_error.1 h
  simp only [Pools.host] at h
  split at h
  · cases h
  · split at h
    · cases h
    · exact (Except.error.inj h).symm

end Lower

theorem Target.unmakeable_of_lower {ctx : Context} {span : Span} {passed : Nat} {s : Lowering}
    {target : Target} {e : CompileError} (h : target.lower ctx span passed s = .error e) :
    e.span = span ∧ target.Unmakeable ctx passed e.complaint := by
  cases target with
  | operation op =>
    rw [Target.lower] at h
    by_cases hpassed : passed > maxPassed
    · rw [if_pos hpassed] at h
      cases Lower.refuse_bind_eq_error.1 h
      exact ⟨rfl, hpassed⟩
    · rw [if_neg hpassed] at h
      cases haction : op.action with
      | native native =>
        rw [haction] at h
        cases h
      | host call =>
        rw [haction] at h
        rcases Lower.bind_eq_error.1 h with h | ⟨_, _, _, h⟩
        · cases Lower.host_eq_error h
          exact ⟨rfl, op, call, rfl, haction⟩
        · cases h
  | schema name params returns =>
    rw [Target.lower] at h
    cases hposition : ctx.schemas.position? name with
    | none =>
      rw [hposition] at h
      cases Lower.lift_eq_error.1 h
      exact ⟨rfl, hposition, params, returns, rfl⟩
    | some i =>
      rw [hposition] at h
      by_cases hpassed : passed > maxPassed
      · simp only [if_pos hpassed] at h
        cases Lower.refuse_bind_eq_error.1 h
        exact ⟨rfl, hpassed⟩
      · simp only [if_neg hpassed] at h
        cases h

namespace Expr

variable {ctx : Context} {scope : Scope}

/-- Wherever the scope has grown from this one, a value that the parameter takes arrives. -/
def Arrives (ctx : Context) (scope : Scope) (expected : StaticType) (e : Expr) : Prop :=
  ∀ start s type code s', scope.Extends s.scope → e.lower ctx start s = .ok ((type, code), s') →
    type ≠ .void ∧ expected.accepts type = true ∧ scope.Extends s'.scope

/-- Arguments fail in one of them, the ones before it being lowered. -/
def FailsInside (ctx : Context) (start : Nat) (before : Code) (params : List StaticType)
    (args : List Expr) (s : Lowering) (error : CompileError) : Prop :=
  ∃ done a rest code s', args = done ++ a :: rest ∧
    lowerArguments ctx start before params done s = .ok (code, s') ∧
      a.lower ctx (start + code.size) s' = .error error

theorem lowerArguments_cons {start : Nat} {before code : Code} {expected type : StaticType}
    {params : List StaticType} {a : Expr} {args : List Expr} {s s' : Lowering}
    (ha : a.lower ctx (start + before.size) s = .ok ((type, code), s')) (hvoid : type ≠ .void)
    (haccepts : expected.accepts type = true) :
    lowerArguments ctx start before (expected :: params) (a :: args) s =
      lowerArguments ctx start (before ++ code ++ expectation expected type) params args s' := by
  rw [lowerArguments]
  change (a.lower ctx (start + before.size) s >>= _) = _
  rw [ha]
  simp only [bind, Except.bind, hvoid, haccepts, if_false, Bool.not_true, Bool.false_eq_true]

/-- Arguments that arrive have nothing wrong with them but what is wrong inside. -/
theorem failsInside_of_arrives {params : List StaticType} {args : List Expr}
    (h : List.Forall₂ (Arrives ctx scope) params args) {start : Nat} {before : Code} {s : Lowering}
    (hs : scope.Extends s.scope) {error : CompileError}
    (herror : lowerArguments ctx start before params args s = .error error) :
    FailsInside ctx start before params args s error := by
  induction h generalizing before s with
  | nil => cases herror
  | @cons expected a params args harrives _ ih =>
    cases ha : a.lower ctx (start + before.size) s with
    | error e =>
      rw [lowerArguments] at herror
      rcases Lower.bind_eq_error.1 herror with ha' | ⟨_, _, ha', _⟩
      · exact ⟨[], a, args, before, s, rfl, rfl, ha'⟩
      · cases ha.symm.trans ha'
    | ok r =>
      obtain ⟨⟨type, code⟩, s'⟩ := r
      obtain ⟨hvoid, haccepts, hs'⟩ := harrives _ _ _ _ _ hs ha
      rw [lowerArguments_cons ha hvoid haccepts] at herror
      obtain ⟨done, b, rest, code', s'', rfl, hdone, hb⟩ := ih hs' herror
      refine ⟨a :: done, b, rest, code', s'', rfl, ?_, hb⟩
      rw [lowerArguments_cons ha hvoid haccepts, hdone]

theorem arrives_of_fills {field : String × StaticType} {a : Expr} (hu : a.Unbound)
    (h : Fills ctx scope field a) : Arrives ctx scope field.2 a := by
  intro start s type code s' hs hlower
  obtain ⟨type', htype, hvoid, haccepts⟩ := h
  obtain ⟨marks, hlowered⟩ := lowered_of_lower a hu hlower
  cases hlowered.type_eq hs htype
  exact ⟨hvoid, StaticType.accepts_iff.2 haccepts, hs.trans hlowered.extends⟩

theorem Arrives.alike {expected : StaticType} {a a' : Expr} (h : Arrives ctx scope expected a)
    (halike : LowersAlike ctx scope a a') : Arrives ctx scope expected a' := by
  intro start s type code s' hs hlower
  rw [halike.lower start s hs] at hlower
  exact h start s type code s' hs hlower

theorem forall₂_arrives {fields : List (String × StaticType)} {args args' : List Expr}
    (hu : AllUnbound args) (hfill : List.Forall₂ (Fills ctx scope) fields args)
    (halike : List.Forall₂ (LowersAlike ctx scope) args args') :
    List.Forall₂ (Arrives ctx scope) (fields.map (·.2)) args' := by
  induction hfill generalizing args' with
  | nil =>
    cases halike
    exact .nil
  | cons ha _ ih =>
    cases halike with
    | cons halike hrest => exact .cons ((arrives_of_fills hu.1 ha).alike halike) (ih hu.2 hrest)

/-- The arguments of a bound call arrive. -/
theorem arrives_bindCall {span : Span} {name : String} {args : List Expr} {target : Target}
    (hu : AllUnbound args) (h : (bindCall ctx scope span name args).1 = .ok target) :
    List.Forall₂ (Arrives ctx scope) target.params (bindCall ctx scope span name args).2 := by
  obtain ⟨_, c, _, hc, hfill, rfl⟩ := bindCall_eq_ok_iff.1 h
  rw [Context.params_of_callee? hc]
  exact forall₂_arrives hu hfill (forall₂_bindCall .refl (lowersAlike_infer_mem args hu))

/-- A call whose arguments arrive fails in one of them, or in nothing but the call itself. -/
theorem failsInside_or_unmakeable {span : Span} {target : Target} {args : List Expr}
    {s : Lowering} (harrive : List.Forall₂ (Arrives ctx s.scope) target.params args) {start : Nat}
    {error : CompileError} (h : (bound span target args).lower ctx start s = .error error) :
    FailsInside ctx start #[] target.params args s error ∨
      (∃ code s', lowerArguments ctx start #[] target.params args s = .ok (code, s')) ∧
        error.span = span ∧ target.Unmakeable ctx args.length error.complaint := by
  rw [Expr.lower, if_neg (not_not.2 harrive.length_eq.symm)] at h
  rcases Lower.bind_eq_error.1 h with h | ⟨code, s', hargs, h⟩
  · exact .inl (failsInside_of_arrives harrive (.refl _) h)
  · rcases Lower.bind_eq_error.1 h with h | ⟨_, _, _, h⟩
    · exact .inr ⟨⟨code, s', hargs⟩, Target.unmakeable_of_lower h⟩
    · cases h

end Expr

/-- What typing answers is what lowering does. -/
structure Context.TypesAgree (ctx : Context) : Prop where
  /-- A tree is lowered in its type, whether or not its calls were bound to find that. -/
  type : ∀ e : Expr, e.Unbound → ∀ s type, e.typeOf ctx s.scope = .ok type →
    ∀ start found code s', (e.lower ctx start s = .ok ((found, code), s') ∨
      (e.infer ctx s.scope).2.lower ctx start s = .ok ((found, code), s')) → found = type
  /-- A call that was bound fails in an argument, or else in nothing but the call itself. -/
  bound : ∀ args, Expr.AllUnbound args → ∀ s span name target args',
    Expr.bindCall ctx s.scope span name args = (.ok target, args') →
      ∀ start error, (Expr.bound span target args').lower ctx start s = .error error →
        Expr.FailsInside ctx start #[] target.params args' s error ∨
          (∃ code s', Expr.lowerArguments ctx start #[] target.params args' s = .ok (code, s')) ∧
            error.span = span ∧ target.Unmakeable ctx args'.length error.complaint

/-- Types that are inferred are those that are lowered, and what resolution accepts for a call
lowering does not refuse. -/
theorem Context.types_agree (ctx : Context) : ctx.TypesAgree where
  type e hu s type htype start found code s' h := by
    have hlower : e.lower ctx start s = .ok ((found, code), s') := by
      rcases h with h | h
      · exact h
      · rwa [(Expr.lowersAlike_infer e hu).lower start s (.refl _)] at h
    obtain ⟨marks, hlowered⟩ := Expr.lowered_of_lower e hu hlower
    exact hlowered.type_eq (.refl _) htype
  bound args hu s span name target args' hbind start error h := by
    have harrive := Expr.arrives_bindCall hu (congrArg Prod.fst hbind)
    rw [hbind] at harrive
    exact Expr.failsInside_or_unmakeable harrive h

/-! ### Too many arguments -/

/-- A schema with more parameters than a call can pass. -/
def Signature.wide : Signature := ⟨"wide", List.replicate 256 ("x", .any), .void⟩

def Context.wide : Context := ⟨.empty, Table.empty.insert "wide" .wide⟩

/-- A state in which `x` is a number. -/
def Lowering.withNumber : Lowering := ⟨{}, Scope.empty.add "x" .number⟩

namespace Expr

/-- As many reads of `x`. -/
def reads (n : Nat) : List Expr := List.replicate n (.read ⟨5, 6⟩ "x")

theorem allUnbound_reads (n : Nat) : AllUnbound (reads n) := by
  induction n with
  | zero => trivial
  | succ n ih => exact ⟨trivial, ih⟩

theorem typeOf_read :
    (read ⟨5, 6⟩ "x").typeOf .wide Lowering.withNumber.scope = .ok .number := by
  rw [typeOf, infer_read, Lowering.withNumber, Scope.find?_add_self]
  rfl

theorem fills_reads (n : Nat) : List.Forall₂ (Fills .wide Lowering.withNumber.scope)
    (List.replicate n ("x", .any)) (reads n) := by
  induction n with
  | zero => exact .nil
  | succ n ih => exact .cons ⟨.number, typeOf_read, nofun, .inl rfl⟩ ih

theorem bindCall_reads : bindCall .wide Lowering.withNumber.scope ⟨0, 900⟩ "wide" (reads 256) =
    (.ok (.schema "wide" (List.replicate 256 .any) .void), reads 256) := by
  have hmangle : mangle "wide" = "wide" := by cbv
  have hcallee : Context.wide.callee? "wide" (Context.alternate .number "wide") =
      some (.ofSignature .wide) := by
    simp [Context.callee?, Context.wide, hmangle, Registry.empty]
  have htarget : (bindCall .wide Lowering.withNumber.scope ⟨0, 900⟩ "wide" (reads 256)).1 =
      .ok (.schema "wide" (List.replicate 256 .any) .void) := by
    refine bindCall_eq_ok_iff.2 ⟨_, _, ?_, hcallee, fills_reads 256, ?_⟩
    · exact alternateName_cons.2 ⟨.number, typeOf_read, rfl⟩
    · rw [Callee.ofSignature, Signature.wide, List.map_replicate]
  have hargs : List.Forall₂ Eq (reads 256)
      (bindCall .wide Lowering.withNumber.scope ⟨0, 900⟩ "wide" (reads 256)).2 := by
    refine forall₂_bindCall (fun _ => rfl) fun e he => ?_
    cases List.eq_of_mem_replicate he
    rw [infer_read]
  rw [List.forall₂_eq_eq_eq] at hargs
  exact Prod.ext htarget hargs.symm

theorem lower_read (ctx : Context) (start : Nat) :
    (read ⟨5, 6⟩ "x").lower ctx start .withNumber =
      .ok ((.number, #[.loadLocal 0]), .withNumber) := by
  rw [lower]
  refine Lower.bind_eq_ok.2 ⟨_, _, Lower.find?_eq_ok.2 ⟨rfl, rfl⟩, ?_⟩
  rw [Lowering.withNumber, Scope.find?_add_self]
  rfl

theorem lowerArguments_reads (n : Nat) (start : Nat) (before : Code) :
    ∃ code, lowerArguments .wide start before (List.replicate n .any) (reads n) .withNumber =
      .ok (code, .withNumber) := by
  induction n generalizing before with
  | zero => exact ⟨before, rfl⟩
  | succ n ih =>
    obtain ⟨code, h⟩ := ih _
    exact ⟨code, (lowerArguments_cons (lower_read _ _) nofun rfl).trans h⟩

/-- A call that was accepted can fail although nothing is wrong with its arguments: it may have too
many of them. -/
theorem bound_fails_outside : ∃ target error,
    AllUnbound (reads 256) ∧
    bindCall .wide Lowering.withNumber.scope ⟨0, 900⟩ "wide" (reads 256) =
      (.ok target, reads 256) ∧
    (bound ⟨0, 900⟩ target (reads 256)).lower .wide 0 .withNumber = .error error ∧
    ∀ a ∈ reads 256, ∀ start s, a.lower .wide start s ≠ .error error := by
  obtain ⟨code, hargs⟩ := lowerArguments_reads 256 0 #[]
  obtain ⟨i, hentry⟩ := Table.find?_eq_some_iff.1
    (Table.find?_insert_self : Context.wide.schemas.find? "wide" = some .wide)
  have hposition : Context.wide.schemas.position? "wide" = some i := Table.position?_of_entry hentry
  have hlength : (reads 256).length = 256 := List.length_replicate
  have hmade : (Target.schema "wide" (List.replicate 256 .any) .void).lower .wide ⟨0, 900⟩ 256
      .withNumber = .error ⟨.tooManyPassed, ⟨0, 900⟩, none⟩ := by
    simp only [Target.lower, hposition]
    rfl
  refine ⟨_, ⟨.tooManyPassed, ⟨0, 900⟩, none⟩, allUnbound_reads 256, bindCall_reads, ?_, ?_⟩
  · rw [lower, hlength, Target.params, List.length_replicate, if_neg (not_not.2 rfl)]
    refine Lower.bind_eq_error.2 (.inr ⟨code, _, hargs, ?_⟩)
    exact Lower.bind_eq_error.2 (.inl hmade)
  · intro a ha start s h
    cases List.eq_of_mem_replicate ha
    rw [lower] at h
    rcases Lower.bind_eq_error.1 h with h | ⟨l, s', _, h⟩
    · cases h
    · cases l with
      | none => cases Lower.lift_eq_error.1 h
      | some l => cases h

end Expr

end EventScript
