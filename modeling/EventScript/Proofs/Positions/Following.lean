import EventScript.Proofs.Agreement
import EventScript.Proofs.Positions
import EventScript.Proofs.Positions.Pools

/-!
Lowering that follows lowering. A part of the second lowering follows one of the first if, wherever
the first succeeds, the second has the same result up to positions, and succeeds too as long as its
pools fit.
-/
namespace EventScript

/-! ### Code up to positions -/

/-- Instructions that stand for the same in two contexts with pools of their own. -/
inductive Instruction.Mirrors (ctx ctx' : Context) (p q : Pools) : Instruction → Instruction → Prop
    where
  | constant {i j : Nat} {l : Literal} (left : p.literals.entries[i]? = some (l, ()))
      (right : q.literals.entries[j]? = some (l, ())) :
      Mirrors ctx ctx' p q (.pushConstant i) (.pushConstant j)
  | host {i j argc : Nat} {returns : Bool} {name : String} {call : HostFunction}
      (left : p.hosts.entries[i]? = some (name, call))
      (right : q.hosts.entries[j]? = some (name, call)) :
      Mirrors ctx ctx' p q (.invokeHost i argc returns) (.invokeHost j argc returns)
  | schema {i j argc : Nat} {returns : Bool} {name : String}
      (left : ctx.schemas.position? name = some i) (right : ctx'.schemas.position? name = some j) :
      Mirrors ctx ctx' p q (.call i argc returns) (.call j argc returns)
  | plain {i : Instruction} (plain : i.IsPlain) : Mirrors ctx ctx' p q i i

/-- What pools hold stays where it is. -/
theorem Instruction.Mirrors.later {ctx ctx' : Context} {p q p' q' : Pools} {i i' : Instruction}
    (h : i.Mirrors ctx ctx' p q i') (hp : p.Extends p') (hq : q.Extends q') :
    i.Mirrors ctx ctx' p' q' i' := by
  cases h with
  | constant left right => exact .constant (hp.literals left) (hq.literals right)
  | host left right => exact .host (hp.hosts left) (hq.hosts right)
  | schema left right => exact .schema left right
  | plain plain => exact .plain plain

def Code.Mirrors (ctx ctx' : Context) (p q : Pools) (c c' : Code) : Prop :=
  List.Forall₂ (Instruction.Mirrors ctx ctx' p q) c.toList c'.toList

/-- Code that refers to nothing outside its routine. -/
def Code.IsPlain (c : Code) : Prop := ∀ i ∈ c.toList, i.IsPlain

namespace Code

variable {ctx ctx' : Context} {p q p' q' : Pools} {c c' d d' : Code} {i i' : Instruction}

theorem IsPlain.mirrors (h : c.IsPlain) : Mirrors ctx ctx' p q c c :=
  List.forall₂_same.2 fun i hi => .plain (h i hi)

theorem Mirrors.append (h : Mirrors ctx ctx' p q c c') (h' : Mirrors ctx ctx' p q d d') :
    Mirrors ctx ctx' p q (c ++ d) (c' ++ d') := by
  simp only [Mirrors, Array.toList_append]
  exact List.rel_append h h'

theorem Mirrors.push (h : Mirrors ctx ctx' p q c c') (hi : i.Mirrors ctx ctx' p q i') :
    Mirrors ctx ctx' p q (c.push i) (c'.push i') := by
  simp only [Mirrors, Array.toList_push]
  exact List.rel_append h (.cons hi .nil)

theorem Mirrors.size_eq (h : Mirrors ctx ctx' p q c c') : c.size = c'.size := h.length_eq

theorem Mirrors.later (h : Mirrors ctx ctx' p q c c') (hp : p.Extends p') (hq : q.Extends q') :
    Mirrors ctx ctx' p' q' c c' := h.imp fun _ _ hi => hi.later hp hq

theorem mirrors_plain (i : Instruction) (h : i.IsPlain) : Mirrors ctx ctx' p q #[i] #[i] :=
  .cons (.plain h) .nil

theorem mirrors_nil : Mirrors ctx ctx' p q #[] #[] := .nil

/-- How a loop looks whether it goes on. -/
theorem mirrors_test (counter finish : Nat) {one one' : Nat}
    (h : Instruction.Mirrors ctx ctx' p q (.pushConstant one) (.pushConstant one')) :
    Mirrors ctx ctx' p q #[.loadLocal counter, .pushConstant one, .atLeast, .jumpIfFalse finish]
      #[.loadLocal counter, .pushConstant one', .atLeast, .jumpIfFalse finish] :=
  .cons (.plain trivial) (.cons h (.cons (.plain trivial) (.cons (.plain trivial) .nil)))

/-- How a loop comes round. -/
theorem mirrors_round (slot : Nat) (op : Arithmetic) (head : Nat) {one one' : Nat}
    (h : Instruction.Mirrors ctx ctx' p q (.pushConstant one) (.pushConstant one')) :
    Mirrors ctx ctx' p q
      #[.loadLocal slot, .pushConstant one, .arithmetic op, .storeLocal slot, .jump head]
      #[.loadLocal slot, .pushConstant one', .arithmetic op, .storeLocal slot, .jump head] :=
  .cons (.plain trivial) (.cons h (.cons (.plain trivial) (.cons (.plain trivial)
    (.cons (.plain trivial) .nil))))

theorem isPlain_expectation (expected actual : StaticType) :
    IsPlain (expectation expected actual) := by
  unfold expectation
  split
  · cases expected.runtimeKind? <;> simp [IsPlain, Instruction.IsPlain]
  · simp [IsPlain]

theorem isPlain_dropValue (type : StaticType) : IsPlain (dropValue type) := by
  unfold dropValue
  split <;> simp [IsPlain, Instruction.IsPlain]

end Code

namespace Lower

variable {α β γ δ : Type} {registry : Registry} {ctx ctx' : Context} {p q : Pools}

/-- From the same scope and pools `p` and `q`: what the first answers the second answers too, up to
`R`, unless its pools do not fit. -/
def Follows (registry : Registry) (p q : Pools) (R : Pools → Pools → α → β → Prop) (m : Lower α)
    (m' : Lower β) : Prop :=
  p.Sound registry → q.Sound registry → ∀ {scope a s}, m ⟨p, scope⟩ = .ok (a, s) →
    ∃ b q', Pools.Advance registry p q s.pools q' ∧ R s.pools q' a b ∧
      (q'.Fits → m' ⟨q, scope⟩ = .ok (b, ⟨q', s.scope⟩))

variable {R : Pools → Pools → α → β → Prop} {S : Pools → Pools → γ → δ → Prop} {m : Lower α}
  {m' : Lower β}

theorem follows_bind {f : α → Lower γ} {f' : β → Lower δ} (hm : Follows registry p q R m m')
    (hf : ∀ p₁ q₁ a b, Pools.Advance registry p q p₁ q₁ → R p₁ q₁ a b →
      Follows registry p₁ q₁ S (f a) (f' b)) : Follows registry p q S (m >>= f) (m' >>= f') := by
  intro hp hq scope c s h
  obtain ⟨a, ⟨p₁, scope₁⟩, ha, hc⟩ := bind_eq_ok.1 h
  obtain ⟨b, q₁, hadvance, hresult, hok⟩ := hm hp hq ha
  obtain ⟨d, q₂, hadvance', hresult', hok'⟩ :=
    hf p₁ q₁ a b hadvance hresult (hadvance.leftSound hp) (hadvance.rightSound hq) hc
  refine ⟨d, q₂, hadvance.trans hadvance', hresult', fun hfits =>
    bind_eq_ok.2 ⟨b, ⟨q₁, scope₁⟩, ?_, ?_⟩⟩
  · exact hok (hfits.of_extends hadvance'.right)
  · exact hok' hfits

/-- The part leaves pools as they are and does not depend on them. -/
def Unpooled (m : Lower α) : Prop := ∀ ⦃p scope a s⦄, m ⟨p, scope⟩ = .ok (a, s) →
  s.pools = p ∧ ∀ q, m ⟨q, scope⟩ = .ok (a, ⟨q, s.scope⟩)

/-- Both sides begin with the same part, which has to do with the scope alone. -/
theorem follows_bind_same {m : Lower α} {f : α → Lower γ} {f' : α → Lower δ} (hm : Unpooled m)
    (hf : ∀ a, (∃ s s', m s = .ok (a, s')) → Follows registry p q S (f a) (f' a)) :
    Follows registry p q S (m >>= f) (m >>= f') := by
  intro hp hq scope c s h
  obtain ⟨a, ⟨p₁, scope₁⟩, ha, hc⟩ := bind_eq_ok.1 h
  obtain ⟨heq, hother⟩ := hm ha
  obtain rfl : p₁ = p := heq
  obtain ⟨d, q', hadvance, hresult, hok⟩ := hf a ⟨_, _, ha⟩ hp hq hc
  exact ⟨d, q', hadvance, hresult, fun hfits => bind_eq_ok.2 ⟨a, _, hother q, hok hfits⟩⟩

theorem follows_pure {a : α} {b : β} (h : R p q a b) :
    Follows registry p q R (pure a) (pure b) := by
  rintro _ _ scope _ _ ⟨⟩
  exact ⟨b, q, .refl _ _ _, h, fun _ => rfl⟩

theorem unpooled_lift (x : Compiled α) : Unpooled (liftM x : Lower α) := by
  intro p scope a s h
  obtain ⟨hx, rfl⟩ := lift_eq_ok.1 h
  exact ⟨rfl, fun q => lift_eq_ok.2 ⟨hx, rfl⟩⟩

theorem unpooled_pure (a : α) : Unpooled (pure a : Lower α) := by
  rintro p scope _ _ ⟨⟩
  exact ⟨rfl, fun _ => rfl⟩

theorem unpooled_bind {m : Lower α} {f : α → Lower γ} (hm : Unpooled m) (hf : ∀ a, Unpooled (f a)) :
    Unpooled (m >>= f) := by
  intro p scope c s h
  obtain ⟨a, ⟨p₁, scope₁⟩, ha, hc⟩ := bind_eq_ok.1 h
  obtain ⟨rfl, hfirst⟩ := hm ha
  obtain ⟨hpools, hsecond⟩ := hf a hc
  exact ⟨hpools, fun q => bind_eq_ok.2 ⟨a, _, hfirst q, hsecond q⟩⟩

theorem unpooled_find? {name : String} : Unpooled (find? name) := by
  intro p scope a s h
  obtain ⟨rfl, rfl⟩ := find?_eq_ok.1 h
  exact ⟨rfl, fun _ => rfl⟩

theorem unpooled_declare {name : String} {type : StaticType} {span : Span} :
    Unpooled (declare name type span) := by
  intro p scope a s h
  obtain ⟨l, scope, hl, rfl, rfl⟩ := declare_eq_ok.1 h
  exact ⟨rfl, fun q => declare_eq_ok.2 ⟨l, scope, hl, rfl, rfl⟩⟩

theorem unpooled_temporary {span : Span} : Unpooled (temporary span) := by
  intro p scope a s h
  obtain ⟨scope, hscope, rfl⟩ := temporary_eq_ok.1 h
  exact ⟨rfl, fun q => temporary_eq_ok.2 ⟨scope, hscope, rfl⟩⟩

/-- Where the first is refused nothing is to be followed. -/
theorem follows_refuse {complaint : CompileError.Complaint} {span : Span} :
    Follows registry p q R (liftM (refuse complaint span : Compiled α) : Lower α) m' := by
  intro _ _ scope a s h
  exact (refuse_eq_ok.1 (lift_eq_ok.1 h).1).elim

theorem follows_refuse_bind {complaint : CompileError.Complaint} {span : Span} {f : α → Lower γ}
    {m' : Lower δ} :
    Follows registry p q S ((liftM (refuse complaint span : Compiled α) : Lower α) >>= f) m' := by
  intro _ _ scope a s h
  obtain ⟨_, _, h, _⟩ := bind_eq_ok.1 h
  exact (refuse_eq_ok.1 (lift_eq_ok.1 h).1).elim

/-- A check that refuses comes first. -/
theorem follows_check {c : Prop} [Decidable c] {complaint : CompileError.Complaint} {span : Span}
    {m : Lower Unit} {f : Unit → Lower γ} {f' : Unit → Lower δ}
    (hf : Follows registry p q S (f ()) (f' ())) : Follows registry p q S
      (if c then (liftM (refuse complaint span : Compiled Unit) : Lower Unit) >>= f else f ())
      (if c then m >>= f' else f' ()) := by
  split
  · exact follows_refuse_bind
  · exact hf

/-- Both sides look at their scopes, which are the same. -/
theorem follows_get_bind {f : Lowering → Lower γ} {f' : Lowering → Lower δ}
    (hf : ∀ scope, Follows registry p q S (f ⟨p, scope⟩) (f' ⟨q, scope⟩)) :
    Follows registry p q S (get >>= f) (get >>= f') := by
  intro hp hq scope c s h
  exact hf scope hp hq h

theorem follows_literal (ctx ctx' : Context) {l : Literal} {span : Span} : Follows registry p q
    (fun p q i j => Instruction.Mirrors ctx ctx' p q (.pushConstant i) (.pushConstant j))
    (literal l span) (literal l span) := by
  intro _ _ scope i s h
  obtain ⟨⟨i, p'⟩, hl, heq⟩ := map_eq_ok.1 h
  obtain ⟨hroom, rfl, hi⟩ := Pools.literal_eq_ok.1 hl
  cases heq
  obtain ⟨j, hj⟩ := Table.position?_of_has
    (Table.has_adding_iff.2 (.inl rfl) : (q.literals.adding l ()).Has l)
  refine ⟨j, { q with literals := q.literals.adding l () }, Pools.advance_literal hroom, ?_, ?_⟩
  · obtain ⟨_, hleft⟩ := Table.position?_eq_some_iff.1 hi
    obtain ⟨_, hright⟩ := Table.position?_eq_some_iff.1 hj
    exact .constant hleft hright
  · intro hfits
    exact map_eq_ok.2 ⟨_, Pools.literal_eq_ok.2 ⟨Pools.has_literal_or_room hfits, rfl, hj⟩, rfl⟩

theorem follows_pushLiteral {l : Literal} {span : Span} :
    Follows registry p q (Code.Mirrors ctx ctx') (pushLiteral l span) (pushLiteral l span) :=
  follows_bind (follows_literal ctx ctx') fun _ _ _ _ _ hi => follows_pure (.cons hi .nil)

theorem follows_host {op : Operation} {call : HostFunction} {span : Span}
    (hop : registry.find? op.name = some op) (haction : op.action = .host call) :
    Follows registry p q (fun p q i j => p.hosts.entries[i]? = some (op.name, call) ∧
        q.hosts.entries[j]? = some (op.name, call))
      (host op.name call span) (host op.name call span) := by
  intro hp hq scope i s h
  obtain ⟨⟨i, p'⟩, hl, heq⟩ := map_eq_ok.1 h
  obtain ⟨hroom, rfl, hi⟩ := Pools.host_eq_ok.1 hl
  cases heq
  obtain ⟨j, hj⟩ := Table.position?_of_has
    (Table.has_adding_iff.2 (.inl rfl) : (q.hosts.adding op.name call).Has op.name)
  refine ⟨j, { q with hosts := q.hosts.adding op.name call }, Pools.advance_host hop haction hroom,
    ⟨Pools.entry_of_adding hop haction hp hi, Pools.entry_of_adding hop haction hq hj⟩, ?_⟩
  intro hfits
  exact map_eq_ok.2 ⟨_, Pools.host_eq_ok.2 ⟨Pools.has_host_or_room hfits, rfl, hj⟩, rfl⟩

end Lower

/-- Contexts with the same operations and the same schemas, if at other positions. -/
structure Context.Rearranges (ctx ctx' : Context) : Prop where
  named : ctx.Named
  registry : ctx.registry = ctx'.registry
  schema : ∀ name, ctx.schemas.find? name = ctx'.schemas.find? name

section

variable {ctx ctx' : Context} {p q : Pools}

theorem Context.Rearranges.refl (named : ctx.Named) : ctx.Rearranges ctx :=
  ⟨named, rfl, fun _ => rfl⟩

theorem Context.Rearranges.agreeOn (h : ctx.Rearranges ctx') (names : List String) :
    ctx.AgreeOn names ctx' :=
  ⟨fun _ _ => by rw [h.registry], fun _ _ _ => by rw [h.registry], h.schema⟩

theorem Target.follows_lower (h : ctx.Rearranges ctx') {target : Target} (known : target.Known ctx)
    {span : Span} {argc : Nat} : Lower.Follows ctx.registry p q (Instruction.Mirrors ctx ctx')
      (target.lower ctx span argc) (target.lower ctx' span argc) := by
  cases target with
  | operation op =>
    simp only [lower]
    refine Lower.follows_check ?_
    cases haction : op.action with
    | native native => exact Lower.follows_pure (.plain trivial)
    | host call =>
      refine Lower.follows_bind (Lower.follows_host known haction) fun _ _ _ _ _ hentry => ?_
      exact Lower.follows_pure (.host hentry.1 hentry.2)
  | schema name params returns =>
    obtain ⟨sig, hsig, _⟩ := known
    have hsig' := (h.schema name).symm.trans hsig
    obtain ⟨i, hi⟩ := Table.position?_of_has ⟨sig, hsig⟩
    obtain ⟨j, hj⟩ := Table.position?_of_has ⟨sig, hsig'⟩
    simp only [lower, hi, hj]
    exact Lower.follows_check (Lower.follows_pure (.schema hi hj))

end

namespace Expr

variable {ctx ctx' : Context}

/-- Code of the same type, up to positions. -/
def MirrorsTyped (ctx ctx' : Context) (p q : Pools) (r r' : StaticType × Code) : Prop :=
  r.1 = r'.1 ∧ Code.Mirrors ctx ctx' p q r.2 r'.2

section

variable {γ δ : Type} {registry : Registry} {p q : Pools} {S : Pools → Pools → γ → δ → Prop}

theorem follows_bind_typed {m m' : Lower (StaticType × Code)} {f : StaticType × Code → Lower γ}
    {f' : StaticType × Code → Lower δ}
    (hm : Lower.Follows registry p q (MirrorsTyped ctx ctx') m m')
    (hf : ∀ {p₁ q₁} type code code', Pools.Advance registry p q p₁ q₁ →
      Code.Mirrors ctx ctx' p₁ q₁ code code' →
        Lower.Follows registry p₁ q₁ S (f (type, code)) (f' (type, code'))) :
    Lower.Follows registry p q S (m >>= f) (m' >>= f') := by
  refine Lower.follows_bind hm fun p₁ q₁ (type, code) (type', code') hadvance ⟨htype, hcode⟩ => ?_
  obtain rfl : type = type' := htype
  exact hf type code code' hadvance hcode

theorem follows_bind_number {what : String} {type : StaticType} {span : Span}
    {f : Code → Lower γ} {f' : Code → Lower δ}
    (hf : ∀ check : Code, check.IsPlain → Lower.Follows registry p q S (f check) (f' check)) :
    Lower.Follows registry p q S (liftM (numberExpectation what type span) >>= f)
      (liftM (numberExpectation what type span) >>= f') := by
  refine Lower.follows_bind_same (Lower.unpooled_lift _) fun check ⟨_, _, h⟩ => hf check ?_
  obtain ⟨_, rfl⟩ := numberExpectation_eq_ok.1 (Lower.lift_eq_ok.1 h).1
  exact Code.isPlain_expectation _ _

end

mutual

theorem follows_lower (h : ctx.Rearranges ctx') : ∀ (e : Expr) (start : Nat) {p q : Pools},
    e.Unbound → Lower.Follows ctx.registry p q (MirrorsTyped ctx ctx') (e.lower ctx start)
      (e.lower ctx' start)
  | .number _ _, start, _, _, _ | .string _ _, start, _, _, _ | .bool _ _, start, _, _, _ => by
    unfold lower
    exact Lower.follows_bind Lower.follows_pushLiteral fun _ _ _ _ _ hcode =>
      Lower.follows_pure ⟨rfl, hcode⟩
  | .text _ markup, start, _, _, _ => by
    unfold lower
    split
    · exact Lower.follows_bind Lower.follows_pushLiteral fun _ _ _ _ _ hcode =>
        Lower.follows_pure ⟨rfl, hcode⟩
    · exact Lower.follows_refuse
  | .read _ name, start, _, _, _ => by
    unfold lower
    refine Lower.follows_bind_same Lower.unpooled_find? fun l? _ => ?_
    split
    · exact Lower.follows_pure ⟨rfl, .cons (.plain trivial) .nil⟩
    · exact Lower.follows_refuse
  | .write span name value, start, _, _, hu => by
    unfold lower
    refine follows_bind_typed (follows_lower h value start hu) fun type code code' _ hcode => ?_
    refine Lower.follows_check (Lower.follows_bind_same Lower.unpooled_find? fun l? _ => ?_)
    have hrest {p q} (check : Code) (hcode : Code.Mirrors ctx ctx' p q code code')
        (hcheck : check.IsPlain) : Lower.Follows ctx.registry p q (MirrorsTyped ctx ctx') (do
          let slot ← Lower.declare name type span
          return (StaticType.void, code ++ check ++ #[Instruction.storeLocal slot])) (do
          let slot ← Lower.declare name type span
          return (StaticType.void, code' ++ check ++ #[Instruction.storeLocal slot])) := by
      refine Lower.follows_bind_same Lower.unpooled_declare fun slot _ => ?_
      exact Lower.follows_pure
        ⟨rfl, (hcode.append hcheck.mirrors).append (.cons (.plain trivial) .nil)⟩
    simp only
    split
    · split
      · exact Lower.follows_bind_same (Lower.unpooled_pure _) fun check ⟨_, _, hpure⟩ =>
          hrest check hcode ((Lower.pure_eq_ok.1 hpure).1 ▸ Code.isPlain_expectation _ _)
      · exact Lower.follows_refuse_bind
    · exact Lower.follows_bind_same (Lower.unpooled_pure _) fun check ⟨_, _, hpure⟩ =>
        hrest check hcode ((Lower.pure_eq_ok.1 hpure).1 ▸ (by simp [Code.IsPlain]))
  | .arithmetic _ op left right, start, _, _, hu => by
    unfold lower
    refine follows_bind_typed (follows_lower h left start hu.1) fun type code code' _ hcode => ?_
    refine follows_bind_number fun check hcheck => ?_
    have hcode := hcode.append hcheck.mirrors
    simp only [hcode.size_eq]
    refine follows_bind_typed (follows_lower h right _ hu.2)
      fun type more more' hadvance hmore => ?_
    refine follows_bind_number fun check' hcheck' => ?_
    have hcode := hcode.later hadvance.left hadvance.right
    exact Lower.follows_pure ⟨rfl, ((hcode.append hmore).append hcheck'.mirrors).append
      (.cons (.plain trivial) .nil)⟩
  | .branch _ condition thenBody none, start, _, _, hu => by
    unfold lower
    refine follows_bind_typed (follows_lower h condition start hu.1)
      fun type test test' _ htest => ?_
    refine Lower.follows_check ?_
    have htest := htest.append (Code.isPlain_expectation .bool type).mirrors
    simp only [htest.size_eq]
    refine follows_bind_typed (follows_lower h thenBody _ hu.2)
      fun type code code' hadvance hcode => ?_
    have hcode := hcode.append (Code.isPlain_dropValue type).mirrors
    simp only [hcode.size_eq]
    refine Lower.follows_bind_same (Lower.unpooled_lift _) fun _ _ => ?_
    have htest := htest.later hadvance.left hadvance.right
    have hjump target := htest.append (Code.mirrors_plain (.jumpIfFalse target) trivial)
    exact Lower.follows_pure ⟨rfl, (hjump _).append hcode⟩
  | .branch _ condition thenBody (some elseBody), start, _, _, hu => by
    unfold lower
    refine follows_bind_typed (follows_lower h condition start hu.1)
      fun type test test' _ htest => ?_
    refine Lower.follows_check ?_
    have htest := htest.append (Code.isPlain_expectation .bool type).mirrors
    simp only [htest.size_eq]
    refine follows_bind_typed (follows_lower h thenBody _ hu.2.1)
      fun type code code' hadvance hcode => ?_
    have hcode := hcode.append (Code.isPlain_dropValue type).mirrors
    simp only [hcode.size_eq]
    refine Lower.follows_bind_same (Lower.unpooled_lift _) fun _ _ => ?_
    refine follows_bind_typed (follows_lower h elseBody _ hu.2.2)
      fun type other other' hadvance' hother => ?_
    have hother := hother.append (Code.isPlain_dropValue type).mirrors
    simp only [hother.size_eq]
    refine Lower.follows_bind_same (Lower.unpooled_lift _) fun _ _ => ?_
    have hcode := hcode.later hadvance'.left hadvance'.right
    have htest := (htest.later hadvance.left hadvance.right).later hadvance'.left hadvance'.right
    have hjump target := htest.append (Code.mirrors_plain (.jumpIfFalse target) trivial)
    have hleave other finish :=
      ((hjump other).append hcode).append (Code.mirrors_plain (.jump finish) trivial)
    exact Lower.follows_pure ⟨rfl, (hleave _ _).append hother⟩
  | .loop span count body, start, _, _, hu => by
    unfold lower
    refine follows_bind_typed (follows_lower h count start hu.1) fun type code code' _ hcode => ?_
    refine follows_bind_number fun check hcheck => ?_
    refine Lower.follows_bind_same Lower.unpooled_temporary fun counter _ => ?_
    refine Lower.follows_bind (Lower.follows_literal ctx ctx')
      fun p₂ q₂ one one' hadvance hone => ?_
    have hcode := (hcode.append hcheck.mirrors).append
      (Code.mirrors_plain (.storeLocal counter) trivial)
    simp only [hcode.size_eq]
    refine Lower.follows_bind_same (Lower.unpooled_lift _) fun _ _ => ?_
    refine follows_bind_typed (follows_lower h body _ hu.2)
      fun type loop loop' hadvance' hloop => ?_
    have hone := hone.later hadvance'.left hadvance'.right
    have hloop := hloop.append (Code.isPlain_dropValue type).mirrors
    have hround head := hloop.append (Code.mirrors_round counter .sub head hone)
    simp only [(hround _).size_eq]
    refine Lower.follows_bind_same (Lower.unpooled_lift _) fun _ _ => ?_
    have hcode := (hcode.later hadvance.left hadvance.right).later hadvance'.left hadvance'.right
    have htest finish := hcode.append (Code.mirrors_test counter finish hone)
    exact Lower.follows_pure ⟨rfl, (htest _).append (hround _)⟩
  | .each span name sequence body, start, _, _, hu => by
    unfold lower
    refine follows_bind_typed (follows_lower h sequence start hu.1)
      fun type code code' _ hcode => ?_
    refine Lower.follows_check ?_
    refine Lower.follows_bind_same Lower.unpooled_temporary fun items _ => ?_
    refine Lower.follows_bind_same Lower.unpooled_temporary fun index _ => ?_
    refine Lower.follows_bind_same Lower.unpooled_declare fun item _ => ?_
    refine Lower.follows_bind (Lower.follows_literal ctx ctx')
      fun p₂ q₂ first first' hadvance hfirst => ?_
    refine Lower.follows_bind (Lower.follows_literal ctx ctx')
      fun p₃ q₃ one one' hadvance' hone => ?_
    have hcode := (hcode.append (Code.isPlain_expectation .list type).mirrors).later hadvance.left
      hadvance.right
    have hbegin : Code.Mirrors ctx ctx' p₂ q₂
        #[.storeLocal items, .pushConstant first, .storeLocal index]
        #[.storeLocal items, .pushConstant first', .storeLocal index] :=
      .cons (.plain trivial) (.cons hfirst (.cons (.plain trivial) .nil))
    have hcode := (hcode.append hbegin).later hadvance'.left hadvance'.right
    simp only [hcode.size_eq]
    refine Lower.follows_bind_same (Lower.unpooled_lift _) fun _ _ => ?_
    refine follows_bind_typed (follows_lower h body _ hu.2)
      fun type loop loop' hadvance' hloop => ?_
    have hone := hone.later hadvance'.left hadvance'.right
    have hloop := hloop.append (Code.isPlain_dropValue type).mirrors
    have hround head := hloop.append (Code.mirrors_round index .add head hone)
    simp only [(hround _).size_eq]
    refine Lower.follows_bind_same (Lower.unpooled_lift _) fun _ _ => ?_
    have hcode := hcode.later hadvance'.left hadvance'.right
    have htest finish : Code.IsPlain #[.loadLocal index, .loadLocal items, .native .listSize,
        .lessThan, .jumpIfFalse finish, .loadLocal items, .loadLocal index, .native .listGet,
        .storeLocal item] := by simp [Code.IsPlain, Instruction.IsPlain]
    exact Lower.follows_pure
      ⟨rfl, (hcode.append (htest _).mirrors).append (hround _)⟩
  | .block _ statements, start, _, _, hu => by
    unfold lower
    exact follows_lowerStatements h statements start .void Code.mirrors_nil hu
  | .call span name args target, start, p, q, hu => by
    obtain ⟨rfl, hu⟩ := hu
    unfold lower
    refine Lower.follows_get_bind fun scope => ?_
    rw [← targetOf_eq_of_agreeOn (h.agreeOn _)]
    refine Lower.follows_bind_same (Lower.unpooled_lift _) fun target ⟨_, _, htarget⟩ => ?_
    have known := known_of_targetOf h.named (Lower.lift_eq_ok.1 htarget).1
    refine Lower.follows_check ?_
    refine Lower.follows_bind
      (follows_lowerArguments h target.params args start Code.mirrors_nil hu)
      fun p₁ q₁ code code' _ hcode => ?_
    refine Lower.follows_bind (target.follows_lower h known) fun p₂ q₂ i i' hadvance hi => ?_
    exact Lower.follows_pure ⟨rfl, (hcode.later hadvance.left hadvance.right).push hi⟩
  | .bound _ _ _, _, _, _, hu => hu.elim

theorem follows_lowerStatements (h : ctx.Rearranges ctx') : ∀ (es : List Expr) (start : Nat)
    (last : StaticType) {before before' : Code} {p q : Pools},
      Code.Mirrors ctx ctx' p q before before' → AllUnbound es →
        Lower.Follows ctx.registry p q (MirrorsTyped ctx ctx')
          (lowerStatements ctx start last before es) (lowerStatements ctx' start last before' es)
  | [], start, last, _, _, _, _, hbefore, _ => by
    unfold lowerStatements
    exact Lower.follows_pure ⟨rfl, hbefore⟩
  | e :: es, start, last, before, before', p, q, hbefore, hu => by
    unfold lowerStatements
    have hbefore := hbefore.append (Code.isPlain_dropValue last).mirrors
    simp only [hbefore.size_eq]
    refine follows_bind_typed (follows_lower h e _ hu.1) fun type code code' hadvance hcode => ?_
    exact follows_lowerStatements h es start type
      ((hbefore.later hadvance.left hadvance.right).append hcode) hu.2

theorem follows_lowerArguments (h : ctx.Rearranges ctx') : ∀ (params : List StaticType)
    (es : List Expr) (start : Nat) {before before' : Code} {p q : Pools},
      Code.Mirrors ctx ctx' p q before before' → AllUnbound es →
        Lower.Follows ctx.registry p q (Code.Mirrors ctx ctx')
          (lowerArguments ctx start before params es) (lowerArguments ctx' start before' params es)
  | [], _, _, _, _, _, _, hbefore, _ | _ :: _, [], _, _, _, _, _, hbefore, _ => by
    unfold lowerArguments
    exact Lower.follows_pure hbefore
  | expected :: params, e :: es, start, before, before', p, q, hbefore, hu => by
    unfold lowerArguments
    simp only [hbefore.size_eq]
    refine follows_bind_typed (follows_lower h e _ hu.1) fun type code code' hadvance hcode => ?_
    refine Lower.follows_check (Lower.follows_check ?_)
    exact follows_lowerArguments h params es start
      (((hbefore.later hadvance.left hadvance.right).append hcode).append
        (Code.isPlain_expectation _ _).mirrors) hu.2

end

end Expr

end EventScript
