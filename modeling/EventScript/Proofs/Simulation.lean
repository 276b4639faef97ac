import EventScript.Proofs.Simulation.Loops

/-!
Code does what its tree means. The walk through the code of a phrase follows the evaluation of the
phrase, from the offset where the code begins to the offset where it ends.
-/
namespace EventScript

/-- The phrase is part of a source text. -/
def Phrase.IsSource : Phrase → Prop
  | .expr e | .body e => e.IsStatement
  | .operand _ e => e.IsFlat
  | .statements _ es => Expr.AllStatements es
  | .arguments _ es => Expr.AllFlat es

/-- The calls of an evaluation are those that the program makes. -/
structure Evaluator.Matches (m : Evaluator) (p : Program) (c : Site) : Prop where
  name : c.routine.name = m.routine
  names : c.routine.localNames = c.scope.slotNames
  call : ∀ {i n : Nat} {name sig args stack locals store},
    m.ctx.schemas.entries[i]? = some (name, sig) → args.length = sig.params.length →
      c.routine.code[n]? = some (.call i args.length (sig.returns ≠ .void)) →
        p.Follows m.rounds (c.state n (args.reverse ++ stack) locals store.world) store
          (fun v? w t => (v? = none ↔ sig.returns = .void) ∧
            t = c.state (n + 1) (v?.toList ++ stack) locals w)
          (m.call name args store)

namespace Site

variable (c : Site) (p : Program) (m : Evaluator)

/-- There is a value exactly if the type has values. Below it, reads of type `void` may have left
others; they cannot if there are to be none. -/
def Leaves (type : StaticType) (tight : Prop) (count : Nat) (locals : Array (Option Value))
    (n : Nat) (stack : List Value) (a : Option Value × Env) (w : World) (t : State) : Prop :=
  (a.1 = none ↔ type = .void) ∧ ∃ rest, (tight → rest = []) ∧
    c.Arrives count locals n (a.1.toList ++ (rest ++ stack)) a.2 w t

/-- Code from one offset to another does what a phrase means. -/
def Simulates (scope : Scope) (type : StaticType) (start stop : Nat) (phrase : Phrase) : Prop :=
  ∀ {stack : List Value} {locals : Array (Option Value)} {env : Env} {store : Store},
    c.scope.Stores env locals → match phrase with
    | .expr e => p.Follows m.rounds (c.state start stack locals store.world) store
      (c.Leaves type (e.IsFlat ∧ type ≠ .void) scope.slotCount locals stop stack)
      (e.eval m scope env store)
    | .operand expected e => p.Follows m.rounds (c.state start stack locals store.world) store
      (fun a => c.Arrives scope.slotCount locals stop (a.1 :: stack) a.2)
      (Eval.operand expected type (e.eval m scope) env store)
    | .body e => p.Follows m.rounds (c.state start stack locals store.world) store
      (fun a w t => ∃ rest, c.Arrives scope.slotCount locals stop (rest ++ stack) a.2 w t)
      (e.eval m scope env store)
    | .statements last es => ∀ {v? : Option Value}, (v? = none ↔ last = .void) →
      p.Follows m.rounds (c.state start (v?.toList ++ stack) locals store.world) store
        (c.Leaves type False scope.slotCount locals stop stack)
        (Expr.evalStatements m scope v? es env store)
    | .arguments params es => p.Follows m.rounds (c.state start stack locals store.world) store
      (fun a w t => a.1.length = params.length ∧
        c.Arrives scope.slotCount locals stop (a.1.reverse ++ stack) a.2 w t)
      (Expr.evalArguments m scope params es env store)

variable {c p m} {ds : List Definition} {pools : Pools} {fuel count n : Nat} {s s' : Lowering}
  {scope : Scope} {type : StaticType} {stack : List Value} {locals : Array (Option Value)}
  {env : Env} {store : Store}

/-- A body leaves nothing that its statement does not leave. -/
theorem followsBody_of_simulates {start stop : Nat} {e : Expr}
    (h : c.Simulates p m scope .void start stop (.body e)) :
    c.FollowsBody p m.rounds start stop scope.slotCount (do let _ ← e.eval m scope) := by
  intro stack locals env store hstores
  apply Eval.follows_bind (h hstores)
  intro _ env' store' t harrives
  exact Eval.follows_pure harrives

theorem simulates_body {start stop : Nat} {e : Expr}
    (h : c.Simulates p m scope type start stop (.expr e)) (hcode : c.Has stop (dropValue type)) :
    c.Simulates p m scope .void start (stop + (dropValue type).size) (.body e) := by
  intro stack locals env store hstores
  apply (h hstores).trans
  rintro a after t ⟨hvalue, rest, _, locals', rfl, hstores', hkeeps⟩
  apply follows_dropValue hcode hvalue
  exact Program.follows_ok ⟨rest, locals', rfl, hstores', hkeeps⟩

/-- An instruction calls what the call is bound to. -/
theorem follows_invoke {target : Target} {span : Span} {args : List Value} {i : Instruction}
    (hp : p.Lowers m.ctx ds pools) (declared : m.ctx.registry.All Operation.WellDeclared)
    (hm : m.Matches p c) (known : target.Known m.ctx) (hs : s.Sound m.ctx)
    (hE : (Setting.of m.ctx pools c.scope).Covers m.ctx s')
    (made : target.lower m.ctx span args.length s = .ok (i, s'))
    (hargs : args.length = target.params.length) (hi : c.routine.code[n]? = some i) :
    p.Follows m.rounds (c.state n (args.reverse ++ stack) locals store.world) store
      (fun a w t => (a.1 = none ↔ target.returns = .void) ∧ a.2 = env ∧
        t = c.state (n + 1) (a.1.toList ++ stack) locals w)
      (m.invoke target args env store) := by
  cases target with
  | operation op =>
    rcases Lowering.of_lower_operation made with ⟨native, haction, rfl, rfl⟩ |
      ⟨call, index, haction, rfl, hindex⟩
    · have hdeclared := declared.of known
      rw [Operation.WellDeclared, haction] at hdeclared
      obtain ⟨harity, hvoid, _⟩ := hdeclared
      have hlength : args.length = native.arity := by
        rw [hargs, ← harity, Target.params, List.length_map]
      simp only [Evaluator.invoke, haction]
      apply (follows_native hi hlength).imp
      rintro a w t ⟨hvalue, h⟩
      exact ⟨hvalue.trans hvoid.symm, h⟩
    · have hop := hE.operations (Lowering.entry_of_host known haction hs hindex)
      rw [show m.ctx.registry.find? op.name = some op from known] at hop
      obtain ⟨_, call', _, haction', hcall⟩ := hp.operation_of hop
      rw [haction] at haction'
      cases haction'
      simp only [Evaluator.invoke, haction]
      apply (follows_host hi hcall).imp
      rintro a w t ⟨hvalue, h⟩
      exact ⟨by rw [hvalue]; simp [Target.returns], h⟩
  | schema name params returns =>
    obtain ⟨sig, hsig, rfl, rfl⟩ := known
    obtain ⟨index, hindex, rfl, rfl⟩ := Lowering.of_lower_schema made
    obtain ⟨sig', hentry⟩ := Table.position?_eq_some_iff.1 hindex
    rw [Table.find?_of_entry hentry] at hsig
    cases hsig
    have hlength : args.length = sig.params.length := by
      rw [hargs, Target.params, List.length_map]
    apply (hm.call hentry hlength hi).map
    exact fun _ _ _ h => ⟨h.1, rfl, h.2⟩

/-! ### A rule for each construct

The offsets are those of the construct's parts, and its own instructions stand between them. -/

section Rules

variable {scope₁ scope₂ : Scope} {span : Span} {name : String} {middle stop : Nat}

theorem simulates_write {value : Expr} {l : Local} (hsound : c.scope.Sound)
    (htyping : value.typing m.ctx scope = (type, scope₁))
    (hlocal : ((scope₁.find? name).map (·.type)).getD type = l.type)
    (hfound : c.scope.find? name = some l)
    (hvalue : c.Simulates p m scope type start stop (.operand l.type value))
    (hi : c.routine.code[stop]? = some (.storeLocal l.slot)) :
    c.Simulates p m scope .void start (stop + 1) (.expr (.write span name value)) := by
  intro stack locals env store hstores
  simp only [Expr.eval, htyping, hlocal]
  apply Eval.follows_bind (hvalue hstores)
  rintro v env' store' t ⟨locals', rfl, hstores', hkeeps⟩
  apply Eval.follows_bind (follows_assign hsound hstores' hfound hi)
  intro _ env'' store'' t h
  exact Eval.follows_pure ⟨by simp, [], fun _ => rfl, h.after hkeeps (Nat.le_refl _)⟩

theorem simulates_arithmetic {op : Arithmetic} {left right : Expr}
    {leftType rightType : StaticType}
    (hleft : left.typing m.ctx scope = (leftType, scope₁))
    (hright : right.typing m.ctx scope₁ = (rightType, scope₂))
    (hcount : scope.slotCount ≤ scope₁.slotCount)
    (hfirst : c.Simulates p m scope leftType start middle (.operand .number left))
    (hsecond : c.Simulates p m scope₁ rightType middle stop (.operand .number right))
    (hi : c.routine.code[stop]? = some (.arithmetic op)) :
    c.Simulates p m scope .number start (stop + 1) (.expr (.arithmetic span op left right)) := by
  intro stack locals env store hstores
  simp only [Expr.eval, hleft, hright]
  apply Eval.follows_bind (hfirst hstores)
  rintro a env' store' t ⟨locals', rfl, hstores', hkeeps⟩
  apply Eval.follows_bind (hsecond hstores')
  rintro b env' store' t ⟨locals'', rfl, hstores'', hkeeps'⟩
  apply Eval.follows_bind (follows_arithmetic hi)
  rintro n env' store' t ⟨rfl, rfl⟩
  exact Eval.follows_pure ⟨by simp, [], fun _ => rfl, locals'', rfl, hstores'',
    hkeeps.trans hkeeps' hcount⟩

theorem simulates_branch {condition thenBody : Expr}
    (htyping : condition.typing m.ctx scope = (type, scope₁))
    (hcount : scope.slotCount ≤ scope₁.slotCount)
    (htest : c.Simulates p m scope type start middle (.operand .bool condition))
    (hi : c.routine.code[middle]? = some (.jumpIfFalse stop))
    (hthen : c.Simulates p m scope₁ .void (middle + 1) stop (.body thenBody)) :
    c.Simulates p m scope .void start stop (.expr (.branch span condition thenBody none)) := by
  intro stack locals env store hstores
  simp only [Expr.eval, htyping]
  apply Eval.follows_bind (htest hstores)
  rintro v env' store' t ⟨locals', rfl, hstores', hkeeps⟩
  apply Eval.follows_bind (follows_truth hi)
  rintro goes env' store' t ⟨rfl, rfl⟩
  cases goes with
  | true =>
    apply Eval.follows_bind (hthen hstores')
    rintro _ env' store' t ⟨rest, h⟩
    exact Eval.follows_pure ⟨by simp, rest, fun h => absurd rfl h.2, h.after hkeeps hcount⟩
  | false =>
    exact Eval.follows_pure ⟨by simp, [], fun _ => rfl, locals', rfl, hstores', hkeeps⟩

theorem simulates_branchElse {condition thenBody elseBody : Expr} {turn : Nat}
    (htyping : condition.typing m.ctx scope = (type, scope₁))
    (htaken : (thenBody.typing m.ctx scope₁).2 = scope₂)
    (hcount : scope.slotCount ≤ scope₁.slotCount) (hcount' : scope₁.slotCount ≤ scope₂.slotCount)
    (htest : c.Simulates p m scope type start middle (.operand .bool condition))
    (hi : c.routine.code[middle]? = some (.jumpIfFalse (turn + 1)))
    (hthen : c.Simulates p m scope₁ .void (middle + 1) turn (.body thenBody))
    (hturn : c.routine.code[turn]? = some (.jump stop))
    (helse : c.Simulates p m scope₂ .void (turn + 1) stop (.body elseBody)) :
    c.Simulates p m scope .void start stop
      (.expr (.branch span condition thenBody (some elseBody))) := by
  intro stack locals env store hstores
  simp only [Expr.eval, htyping, htaken]
  apply Eval.follows_bind (htest hstores)
  rintro v env' store' t ⟨locals', rfl, hstores', hkeeps⟩
  apply Eval.follows_bind (follows_truth hi)
  rintro goes env' store' t ⟨rfl, rfl⟩
  cases goes with
  | true =>
    apply Eval.follows_bind (hthen hstores')
    rintro _ env' store' t ⟨rest, locals'', rfl, hstores'', hkeeps'⟩
    -- the other branch is jumped over
    apply follows_jump hturn
    exact Eval.follows_pure ⟨by simp, rest, fun h => absurd rfl h.2, locals'', rfl, hstores'',
      hkeeps.trans hkeeps' hcount⟩
  | false =>
    apply Eval.follows_bind (helse hstores')
    rintro _ env' store' t ⟨rest, h⟩
    exact Eval.follows_pure ⟨by simp, rest, fun h => absurd rfl h.2,
      h.after hkeeps (Nat.le_trans hcount hcount')⟩

theorem simulates_loop {counted body : Expr} {counter one : Nat} (hsound : c.scope.Sound)
    (htyping : counted.typing m.ctx scope = (type, scope₁)) (hscope : scope₁.skip = scope₂)
    (hslot : counter < c.scope.slotCount ∧ c.scope.typeAt counter = none)
    (hinner : counter < scope₂.slotCount) (hcount : scope.slotCount ≤ counter)
    (hone : p.constants[one]? = some (.number .one))
    (hcounted : c.Simulates p m scope type start middle (.operand .number counted))
    (hhead : c.Has middle #[.storeLocal counter, .loadLocal counter, .pushConstant one, .atLeast,
      .jumpIfFalse (stop + 5)])
    (hbody : c.Simulates p m scope₂ .void (middle + 5) stop (.body body))
    (hnext : c.Has stop #[.loadLocal counter, .pushConstant one, .arithmetic .sub,
      .storeLocal counter, .jump (middle + 1)]) :
    c.Simulates p m scope .void start (stop + 5) (.expr (.loop span counted body)) := by
  intro stack locals env store hstores
  simp only [Expr.eval, htyping, hscope]
  apply Eval.follows_bind (hcounted hstores)
  rintro v env' store' t ⟨locals', rfl, hstores', hkeeps⟩
  apply Eval.follows_bind (follows_loop hsound hslot hone hhead hnext
    (followsBody_of_simulates hbody) hinner hcount hstores')
  rintro _ env' store' t ⟨rest, h⟩
  exact Eval.follows_pure ⟨by simp, rest, fun h => absurd rfl h.2, h.after hkeeps (Nat.le_refl _)⟩

theorem simulates_each {sequence body : Expr} {items index first one : Nat} {item : Local}
    (hsound : c.scope.Sound) (htyping : sequence.typing m.ctx scope = (type, scope₁))
    (hscope : scope₁.skip.skip.declared name .any = scope₂)
    (hlists : (Setting.of m.ctx pools c.scope).Lists items index first one name item)
    (hconstants : ∀ {i : Nat} {l}, (Setting.of m.ctx pools c.scope).constants[i]? = some l →
      p.constants[i]? = some l)
    (hlt : items < index) (hinner : index < scope₂.slotCount) (hcount : scope.slotCount ≤ items)
    (hlisted : c.Simulates p m scope type start middle (.operand .list sequence))
    (hhead : c.Has middle #[.storeLocal items, .pushConstant first, .storeLocal index,
      .loadLocal index, .loadLocal items, .native .listSize, .lessThan, .jumpIfFalse (stop + 5),
      .loadLocal items, .loadLocal index, .native .listGet, .storeLocal item.slot])
    (hbody : c.Simulates p m scope₂ .void (middle + 12) stop (.body body))
    (hnext : c.Has stop #[.loadLocal index, .pushConstant one, .arithmetic .add, .storeLocal index,
      .jump (middle + 3)]) :
    c.Simulates p m scope .void start (stop + 5) (.expr (.each span name sequence body)) := by
  intro stack locals env store hstores
  simp only [Expr.eval, htyping, hscope]
  apply Eval.follows_bind (hlisted hstores)
  rintro list env' store' t ⟨locals', rfl, hstores', hkeeps⟩
  apply Eval.follows_bind (follows_each hsound hlists rfl hconstants hhead hnext
    (followsBody_of_simulates hbody) hlt hinner hcount hstores')
  rintro _ env' store' t ⟨rest, h⟩
  exact Eval.follows_pure ⟨by simp, rest, fun h => absurd rfl h.2, h.after hkeeps (Nat.le_refl _)⟩

theorem simulates_operand {expected : StaticType} {e : Expr} (hflat : e.IsFlat)
    (hvalued : type ≠ .void) (h : c.Simulates p m scope type start middle (.expr e))
    (hcode : c.Has middle (expectation expected type)) :
    c.Simulates p m scope type start (middle + (expectation expected type).size)
      (.operand expected e) := by
  intro stack locals env store hstores
  apply follows_operand hcode
  apply (h hstores).imp
  rintro a w t ⟨hvalue, rest, hrest, h⟩
  rw [hrest ⟨hflat, hvalued⟩] at h
  exact ⟨fun hnone => hvalued (hvalue.1 hnone), h⟩

theorem simulates_statements {e : Expr} {es : List Expr} {last type' : StaticType}
    (htyping : (e.typing m.ctx scope).2 = scope₁) (hcount : scope.slotCount ≤ scope₁.slotCount)
    (hdrop : c.Has start (dropValue last))
    (hfirst : c.Simulates p m scope type (start + (dropValue last).size) middle (.expr e))
    (hothers : c.Simulates p m scope₁ type' middle stop (.statements type es)) :
    c.Simulates p m scope type' start stop (.statements last (e :: es)) := by
  intro stack locals env store hstores v? hlast
  simp only [Expr.evalStatements, htyping]
  apply follows_dropValue hdrop hlast
  apply Eval.follows_bind (hfirst hstores)
  rintro a env' store' t ⟨hvalue, rest, _, locals', rfl, hstores', hkeeps⟩
  apply (hothers hstores' hvalue).imp
  rintro b w t ⟨hvalue', rest', _, h⟩
  refine ⟨hvalue', rest' ++ rest, False.elim, ?_⟩
  rw [List.append_assoc]
  exact h.after hkeeps hcount

theorem simulates_arguments {e : Expr} {es : List Expr} {expected : StaticType}
    {params : List StaticType} (htyping : e.typing m.ctx scope = (type, scope₁))
    (hcount : scope.slotCount ≤ scope₁.slotCount)
    (hfirst : c.Simulates p m scope type start middle (.operand expected e))
    (hothers : c.Simulates p m scope₁ .void middle stop (.arguments params es)) :
    c.Simulates p m scope .void start stop (.arguments (expected :: params) (e :: es)) := by
  intro stack locals env store hstores
  simp only [Expr.evalArguments, htyping]
  apply Eval.follows_bind (hfirst hstores)
  rintro v env' store' t ⟨locals', rfl, hstores', hkeeps⟩
  apply Eval.follows_bind (hothers hstores')
  rintro vs env' store' t ⟨hlength, h⟩
  refine Eval.follows_pure ⟨by simpa using hlength, ?_⟩
  rw [List.reverse_cons, List.append_assoc]
  exact h.after hkeeps hcount

end Rules

end Site

namespace Lowered

variable {ctx : Context} {c : Site} {p : Program} {m : Evaluator} {ds : List Definition}
  {pools : Pools} {start : Nat} {phrase : Phrase} {s s' : Lowering} {type : StaticType}
  {code : Code} {marks : List Nat}

theorem eval_of_literal {e : Expr} {l : Literal} {scope : Scope} (h : e.IsLiteral type l) :
    e.eval m scope = pure (some l.toValue) := by
  cases h with
  | text read =>
    simp only [Expr.eval, read]
    rfl
  | number | string | bool => rfl

/-- Code does what its tree means. -/
theorem simulates (hp : p.Lowers m.ctx ds pools)
    (declared : m.ctx.registry.All Operation.WellDeclared) (hm : m.Matches p c)
    (h : Lowered m.ctx start phrase s type code marks s') :
    s.Sound m.ctx → (Setting.of m.ctx pools c.scope).Covers m.ctx s' → phrase.IsSource →
      c.Has start code → ∀ {stop : Nat}, stop = start + code.size →
        c.Simulates p m s.scope type start stop phrase := by
  have named := hp.named
  have hconstants : ∀ {i : Nat} {l}, (Setting.of m.ctx pools c.scope).constants[i]? = some l →
      p.constants[i]? = some l := by
    intro i l hl
    rw [hp.constants]
    exact hl
  induction h with
  | literal value place =>
    intro hs hE _ hcode stop hstop stack locals env store hstores
    have hl := hconstants (hE.constants (Lowering.entry_of_literal place))
    have hliteral := Expr.isLiteral_of_literal? value
    have hvalued := (kind_of_literal hliteral).1
    simp only [eval_of_literal hliteral, hstop]
    apply Site.follows_pushConstant hcode.single hl
    exact Eval.follows_pure ⟨by simp [hvalued], [], fun _ => rfl, Site.arrives_of_stores hstores⟩
  | @read start span name s l found =>
    intro hs hE _ hcode stop hstop stack locals env store hstores
    simp only [Expr.eval, Expr.typing, found, Option.map_some, Option.getD_some, ← hm.name, hstop]
    apply Eval.follows_bind (Site.follows_read hE.sound hm.names hstores (hE.scope.kept found)
      hcode.single)
    rintro v env' store' t ⟨rfl, rfl⟩
    by_cases hvoid : l.type = .void
    · rw [if_pos hvoid]
      exact Eval.follows_pure ⟨by simp [hvoid], [v], fun h => absurd hvoid h.2,
        Site.arrives_of_stores hstores⟩
    · rw [if_neg hvoid]
      exact Eval.follows_pure ⟨by simp [hvoid], [], fun _ => rfl, Site.arrives_of_stores hstores⟩
  | @write start span name value s type code marks s₁ l scope stored place ih =>
    intro hs hE hsource hcode stop hstop stack locals env store hstores
    obtain rfl : stop = start + code.size + 1 := by simpa [Nat.add_assoc] using hstop
    have hexpected : ((s₁.scope.find? name).map (·.type)).getD type = l.type := by
      rcases Scope.declare?_eq_some_iff.1 place with ⟨hfound, _⟩ | ⟨hfound, _, rfl, _⟩
      · rw [hfound]
        rfl
      · rw [hfound]
        rfl
    exact Site.simulates_write hE.sound stored.typing hexpected
      (hE.scope.kept (Scope.find?_of_declare? place))
      (ih hs (hE.of_grows (Lowering.grows_of_declare? place)) hsource hcode.left rfl)
      (hcode.right rfl).single hstores
  | @arithmetic start span op left right s leftType leftCode leftMarks s₁ rightType rightCode
      rightMarks s₂ first second ih₁ ih₂ =>
    intro hs hE hsource hcode stop hstop stack locals env store hstores
    obtain rfl : stop = start + leftCode.size + rightCode.size + 1 := by
      simpa [Nat.add_assoc] using hstop
    have hi : c.Has (start + leftCode.size + rightCode.size) #[.arithmetic op] :=
      hcode.right (by simp [Nat.add_assoc])
    exact Site.simulates_arithmetic first.typing second.typing (first.grows named).scope.count
      (ih₁ hs (hE.of_grows (second.grows named)) hsource.1 hcode.left.left rfl)
      (ih₂ ((first.grows named).sound hs) hE hsource.2 (hcode.left.right rfl) rfl) hi.single hstores
  | @branch start span condition thenBody s type test marks s₁ thenCode thenMarks s₂ tested taken
      ih₁ ih₂ =>
    intro hs hE hsource hcode stop hstop stack locals env store hstores
    obtain rfl : stop = start + test.size + 1 + thenCode.size := by
      simpa [Nat.add_assoc] using hstop
    exact Site.simulates_branch tested.typing (tested.grows named).scope.count
      (ih₁ hs (hE.of_grows (taken.grows named)) hsource.1 hcode.left.left rfl)
      (hcode.left.right rfl).single
      (ih₂ ((tested.grows named).sound hs) hE hsource.2 (hcode.right (by simp [Nat.add_assoc])) rfl)
      hstores
  | @branchElse start span condition thenBody elseBody s type test marks s₁ thenCode thenMarks s₂
      elseCode elseMarks s₃ tested taken other ih₁ ih₂ ih₃ =>
    intro hs hE hsource hcode stop hstop stack locals env store hstores
    obtain rfl : stop = start + test.size + 1 + thenCode.size + 1 + elseCode.size := by
      simpa [Nat.add_assoc] using hstop
    have htaken : (thenBody.typing m.ctx s₁.scope).2 = s₂.scope := congrArg Prod.snd taken.typing
    have hE₂ := hE.of_grows (other.grows named)
    have hs₁ := (tested.grows named).sound hs
    exact Site.simulates_branchElse tested.typing htaken
      (tested.grows named).scope.count (taken.grows named).scope.count
      (ih₁ hs (hE₂.of_grows (taken.grows named)) hsource.1 hcode.left.left.left.left rfl)
      (hcode.left.left.left.right rfl).single
      (ih₂ hs₁ hE₂ hsource.2.1 (hcode.left.left.right (by simp [Nat.add_assoc])) rfl)
      (hcode.left.right (by simp [Nat.add_assoc])).single
      (ih₃ ((taken.grows named).sound hs₁) hE hsource.2.2 (hcode.right (by simp [Nat.add_assoc]))
        rfl) hstores
  | @loop start span count body s type code marks s₁ counter scope one s₂ bodyCode bodyMarks s₃
      counted slot unit repeated ih₁ ih₂ =>
    intro hs hE hsource hcode stop hstop stack locals env store hstores
    obtain rfl : stop = start + code.size + 5 + bodyCode.size + 5 := by
      simpa [Nat.add_assoc] using hstop
    obtain ⟨hE₁, hs₂, hslot, hone⟩ :=
      (hE.of_grows (repeated.grows named)).loop ((counted.grows named).sound hs) slot unit
    obtain ⟨_, rfl, rfl⟩ := Scope.temporary?_eq_some_iff.1 slot
    have hscope : s₁.scope.skip = s₂.scope := (Lowering.scope_of_literal unit).symm
    have hinner : s₁.scope.slotCount < s₂.scope.slotCount := by
      rw [← hscope]
      exact Nat.lt_succ_self _
    exact Site.simulates_loop hE.sound counted.typing hscope hslot hinner
      (counted.grows named).scope.count (hconstants hone)
      (ih₁ hs hE₁ hsource.1 hcode.left.left.left rfl) (hcode.left.left.right rfl)
      (ih₂ hs₂ hE hsource.2 (hcode.left.right (by simp [Nat.add_assoc])) rfl)
      (hcode.right (by simp [Nat.add_assoc])) hstores
  | @each start span name sequence body s type code marks s₁ items scope₁ index scope₂ item scope₃
      first s₂ one s₃ bodyCode bodyMarks s₄ listed itemsSlot indexSlot itemSlot zero unit repeated
      ih₁ ih₂ =>
    intro hs hE hsource hcode stop hstop stack locals env store hstores
    obtain rfl : stop = start + code.size + 12 + bodyCode.size + 5 := by
      simpa [Nat.add_assoc] using hstop
    obtain ⟨hE₁, hs₅, hlists⟩ := (hE.of_grows (repeated.grows named)).each
      ((listed.grows named).sound hs) itemsSlot indexSlot itemSlot zero unit
    obtain ⟨hscope, hitems, hlt, hinner⟩ := Scope.slots_of_each itemsSlot indexSlot itemSlot
    have hcount : s.scope.slotCount ≤ items := by
      rw [hitems]
      exact (listed.grows named).scope.count
    have hscope₃ : scope₃ = s₃.scope := by
      rw [Lowering.scope_of_literal unit, Lowering.scope_of_literal zero]
    rw [hscope₃] at hscope hinner
    exact Site.simulates_each hE.sound listed.typing hscope hlists hconstants hlt hinner hcount
      (ih₁ hs hE₁ hsource.1 hcode.left.left.left rfl) (hcode.left.left.right rfl)
      (ih₂ hs₅ hE hsource.2 (hcode.left.right (by simp [Nat.add_assoc])) rfl)
      (hcode.right (by simp [Nat.add_assoc])) hstores
  | @block start span es s type code marks s' inner ih =>
    intro hs hE hsource hcode stop hstop stack locals env store hstores
    simp only [Expr.eval]
    apply (ih hs hE hsource hcode hstop hstores (by simp)).imp
    rintro a w t ⟨hvalue, rest, _, h⟩
    exact ⟨hvalue, rest, fun h => h.1.elim, h⟩
  | @call start span name args s target code marks s₁ i s₂ bound passed made ih =>
    intro hs hE hsource hcode stop hstop stack locals env store hstores
    obtain rfl : stop = start + code.size + 1 := by simpa [Nat.add_assoc] using hstop
    have known := Expr.known_of_targetOf named bound
    simp only [Expr.eval, bound]
    apply Eval.follows_bind (ih hs (hE.of_grows (Lowering.grows_of_target known made)) hsource.2
      hcode.left rfl hstores)
    rintro vs env' store' t ⟨hlength, locals', rfl, hstores', hkeeps⟩
    have hargc : vs.length = args.length := by
      rw [hlength, passed.length_eq_of_arguments _ _ rfl]
    rw [← hargc] at made
    apply (Site.follows_invoke hp declared hm known ((passed.grows named).sound hs) hE made hlength
      (hcode.right rfl).single).imp
    rintro a w t ⟨hvalue, rfl, rfl⟩
    exact ⟨hvalue, [], fun _ => rfl, locals', rfl, hstores', hkeeps⟩
  | @operand start expected e s type code marks s' inner valued fits ih =>
    intro hs hE hsource hcode stop hstop stack locals env store hstores
    obtain rfl : stop = start + code.size + (expectation expected type).size := by
      simpa [Nat.add_assoc] using hstop
    exact Site.simulates_operand hsource valued (ih hs hE hsource.isStatement hcode.left rfl)
      (hcode.right rfl) hstores
  | @body start e s type code marks s' inner ih =>
    intro hs hE hsource hcode stop hstop
    obtain rfl : stop = start + code.size + (dropValue type).size := by
      simpa [Nat.add_assoc] using hstop
    exact Site.simulates_body (ih hs hE hsource hcode.left rfl) (hcode.right rfl)
  | noStatements =>
    intro hs hE _ hcode stop hstop stack locals env store hstores v? hlast
    simp only [Expr.evalStatements, hstop]
    exact Eval.follows_pure ⟨hlast, [], fun _ => rfl, Site.arrives_of_stores hstores⟩
  | @statements start last e es s type code marks s₁ type' rest marks' s₂ first others ih₁ ih₂ =>
    intro hs hE hsource hcode stop hstop stack locals env store hstores v? hlast
    obtain rfl : stop = start + (dropValue last).size + code.size + rest.size := by
      simpa [Nat.add_assoc] using hstop
    have htyping : (e.typing m.ctx s.scope).2 = s₁.scope := congrArg Prod.snd first.typing
    exact Site.simulates_statements htyping (first.grows named).scope.count hcode.left.left
      (ih₁ hs (hE.of_grows (others.grows named)) hsource.1 (hcode.left.right rfl) rfl)
      (ih₂ ((first.grows named).sound hs) hE hsource.2 (hcode.right (by simp [Nat.add_assoc])) rfl)
      hstores hlast
  | noArguments =>
    intro hs hE _ hcode stop hstop stack locals env store hstores
    simp only [Expr.evalArguments, hstop]
    exact Eval.follows_pure ⟨rfl, Site.arrives_of_stores hstores⟩
  | @arguments start expected params e es s type code marks s₁ rest marks' s₂ first others ih₁
      ih₂ =>
    intro hs hE hsource hcode stop hstop stack locals env store hstores
    obtain rfl : stop = start + code.size + rest.size := by simpa [Nat.add_assoc] using hstop
    exact Site.simulates_arguments first.typing (first.grows named).scope.count
      (ih₁ hs (hE.of_grows (others.grows named)) hsource.1 hcode.left rfl)
      (ih₂ ((first.grows named).sound hs) hE hsource.2 (hcode.right rfl) rfl) hstores

end Lowered

end EventScript
