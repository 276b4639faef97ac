import EventScript.Proofs.Simulation

/-!
Calls of schemas. A routine that is entered with arguments follows the evaluation of its schema, and
so do the calls in its body: the induction is on the fuel of the evaluation, which each call spends.
-/
namespace EventScript

/-- The next step answers the waiting calls with a result. -/
structure Program.Returns (p : Program) (type : StaticType) (callers : List (Frame × Bool))
    (result : Option Value) (w : World) (t : State) : Prop where
  value : result = none ↔ type = .void
  callers : t.callers = callers
  world : t.world = w
  quiet : p.invocation? t = none
  answer : p.free t = t.answer result

/-- The state in which a routine begins while other calls wait. -/
def Routine.entered (r : Routine) (args : List Value) (callers : List (Frame × Bool)) (w : World) :
    State where
  frame := { routine := r, locals := r.slots args }
  callers
  world := w

namespace Site

variable {c : Site} {p : Program} {fuel n : Nat} {stack : List Value}
  {locals : Array (Option Value)} {store : Store} {o : Option (Answer × Store)}

/-- A call goes on where its callee returns to. -/
theorem follows_call {i : Nat} {args : List Value} {type : StaticType} {r : Routine}
    (hi : c.routine.code[n]? = some (.call i args.length (type ≠ .void)))
    (hr : p.routines[i]? = some r)
    (h : p.Follows fuel (r.entered args
      (((c.state (n + 1) stack locals store.world).frame, decide (type ≠ .void)) :: c.callers)
        store.world) store
      (p.Returns type
        (((c.state (n + 1) stack locals store.world).frame, decide (type ≠ .void)) :: c.callers)) o) :
    p.Follows (fuel + 1) (c.state n (args.reverse ++ stack) locals store.world) store
      (fun v? w t => (v? = none ↔ type = .void) ∧ t = c.state (n + 1) (v?.toList ++ stack) locals w)
      o := by
  have hlength : args.length = args.reverse.length := by rw [List.length_reverse]
  have hfree := Program.free_call (p := p) (s := c.state n (args.reverse ++ stack) locals store.world)
    hi (by simp [state]) hr
  have hentered : ((c.state n (args.reverse ++ stack) locals store.world).goto (n + 1)
      (args.reverse ++ stack)).enter r args.length (type ≠ .void) =
        r.entered args (((c.state (n + 1) stack locals store.world).frame, decide (type ≠ .void)) ::
          c.callers) store.world := by
    simp only [State.enter, State.goto_stack, List.take_left' hlength.symm,
      List.drop_left' hlength.symm, List.reverse_reverse]
    rfl
  refine Program.follows_succ_of_free (hfree.trans (congrArg _ hentered))
    (invocation?_eq_none hi (by simp)) (h.trans ?_)
  intro v? after t ht
  obtain ⟨hvalue, hcallers, hworld, hquiet, hanswer⟩ := ht
  cases v? with
  | none =>
    have hnone : decide (type ≠ .void) = false := by simp [hvalue.1 rfl]
    simp only [State.answer, hcallers, hnone] at hanswer
    exact Program.follows_of_free hanswer hquiet (Program.follows_ok ⟨hvalue, by rw [hworld]; rfl⟩)
  | some v =>
    have hvalued : type ≠ .void := fun hvoid => by cases hvalue.2 hvoid
    simp only [State.answer, hcallers, decide_eq_true hvalued] at hanswer
    exact Program.follows_of_free hanswer hquiet (Program.follows_ok ⟨hvalue, by rw [hworld]; rfl⟩)

end Site

namespace Definition

variable {d : Definition} {c : Site} {p : Program} {fuel n : Nat} {type : StaticType}
  {ending : Code} {stack : List Value} {locals : Array (Option Value)} {env : Env} {store : Store}
  {v? : Option Value}

theorem returns_of_answer {result : Option Value} {w : World} {i : Instruction}
    (hvalue : result = none ↔ type = .void) (hi : c.routine.code[n]? = some i)
    (hreturns : i = .returnVoid ∧ result = none ∨
      i = .returnValue ∧ ∃ v rest, result = some v ∧ stack = v :: rest) :
    p.Returns type c.callers result w (c.state n stack locals w) where
  value := hvalue
  callers := rfl
  world := rfl
  quiet := by
    apply Site.invocation?_eq_none hi
    rcases hreturns with ⟨rfl, _⟩ | ⟨rfl, _⟩ <;> simp
  answer := by
    rcases hreturns with ⟨rfl, rfl⟩ | ⟨rfl, v, rest, rfl, rfl⟩
    · exact Program.free_returnVoid hi
    · exact Program.free_returnValue hi rfl

/-- The end of a body answers what its last statement comes to. -/
theorem follows_answer (h : d.Ends type ending) (hcode : c.Has n ending)
    (hvalue : v? = none ↔ type = .void) :
    p.Follows fuel (c.state n (v?.toList ++ stack) locals store.world) store
      (fun a => p.Returns d.schema.returns c.callers a.1) (d.answer type v? env store) := by
  unfold answer
  cases h with
  | nothing void =>
    rw [if_pos void]
    apply Site.follows_dropValue hcode.left hvalue
    apply Eval.follows_pure
    exact returns_of_answer (by simp [void]) (hcode.right rfl).single (.inl ⟨rfl, rfl⟩)
  | text returns =>
    cases v? with
    | none => cases hvalue.1 rfl
    | some v =>
      simp only [returns, reduceCtorEq, if_false, Eval.value_pure_some, pure_bind, and_self, if_true]
      apply (Site.follows_toText (hcode.at 0 rfl)).trans
      rintro a after t ⟨text, htext, rfl⟩
      apply Program.follows_ok
      exact returns_of_answer (by simp [htext]) (hcode.at 1 rfl) (.inr ⟨rfl, text, _, htext, rfl⟩)
  | value returns valued fits =>
    cases v? with
    | none => exact absurd (hvalue.1 rfl) valued
    | some v =>
      have hplain : ¬(d.schema.returns = .text ∧ type = .string) := by
        rintro ⟨htext, rfl⟩
        rw [htext] at fits
        revert fits
        decide
      simp only [if_neg returns, Eval.value_pure_some, pure_bind, if_neg hplain]
      apply Eval.follows_bind (Site.follows_arrive hcode.left)
      rintro v' env' store' t ⟨_, rfl⟩
      apply Eval.follows_pure
      exact returns_of_answer (by simp [returns]) (hcode.right rfl).single
        (.inr ⟨rfl, v', stack, rfl, rfl⟩)

end Definition

namespace Program.Lowers

variable {ctx : Context} {ds : List Definition} {pools before : Pools} {p : Program}
  {d d' : Definition} {r : Routine} {i : Nat} {marks : List Nat} {s' : Lowering}
  {args : List Value}

/-- Schemas have names of their own. -/
theorem find?_of_getElem? (h : p.Lowers ctx ds pools) (hd : ds[i]? = some d) :
    ds.find? (·.name = d.name) = some d := by
  cases hfind : ds.find? (·.name = d.name) with
  | none =>
    rw [List.find?_eq_none] at hfind
    exact absurd (decide_eq_true rfl) (hfind d (List.mem_of_getElem? hd))
  | some e =>
    have hname : e.name = d.name := by simpa using List.find?_some hfind
    obtain ⟨j, hj⟩ := List.getElem?_of_mem (List.mem_of_find?_eq_some hfind)
    have hji := Table.entry_unique (h.schemas.2 ⟨e, hj, hname, rfl⟩) (h.schemas.2 ⟨d, hd, rfl, rfl⟩)
    rw [← hji, hj] at hd
    exact hd

end Program.Lowers

namespace Definition

variable {ctx : Context} {d : Definition} {before : Pools} {r : Routine} {marks : List Nat}
  {s' : Lowering} {args : List Value}

private theorem find?_zip : ∀ {ps : List Param} {args : List Value} {i : Nat} {param : Param},
    (ps.map (·.name)).Nodup → ps[i]? = some param → args.length = ps.length →
      ((ps.zip args).find? (·.1.name = param.name)).map (·.2) = args[i]?
  | p :: ps, v :: args, 0, param, _, hp, _ => by
    cases hp
    simp
  | p :: ps, v :: args, i + 1, param, hd, hp, hargs => by
    rw [List.map_cons, List.nodup_cons] at hd
    have hp : ps[i]? = some param := hp
    have hne : p.name ≠ param.name := by
      intro heq
      exact hd.1 (heq ▸ List.mem_map_of_mem (List.mem_of_getElem? hp))
    rw [List.zip_cons_cons, List.find?_cons_of_neg (by simpa using hne), List.getElem?_cons_succ]
    exact find?_zip hd.2 hp (Nat.succ.inj hargs)

theorem bind_of_not_mem {name : String} (h : name ∉ d.schema.params.map (·.name)) :
    d.bind args name = none := by
  unfold bind
  rw [Option.map_eq_none_iff, List.find?_eq_none]
  intro pair hpair heq
  obtain ⟨hparam, _⟩ := List.of_mem_zip hpair
  exact h (List.mem_map.2 ⟨pair.1, hparam, by simpa using heq⟩)

theorem Lowers.name (h : d.Lowers ctx before r marks s') : r.name = d.name := by
  cases h
  rfl

theorem Lowers.localNames (h : d.Lowers ctx before r marks s') :
    r.localNames = s'.scope.slotNames := by
  cases h
  rfl

/-- A routine begins with the arguments in the slots of its parameters. -/
theorem Lowers.stores (named : ctx.Named) (h : d.Lowers ctx before r marks s')
    (sound : before.Sound ctx.registry) (hargs : args.length = d.schema.params.length) :
    s'.scope.Stores (d.bind args) (r.slots args) := by
  have hnames := h.names named sound
  obtain ⟨_, distinct, lowered, _⟩ := h
  have grows := (lowered.grows named).scope
  refine ⟨Routine.size_slots, ?_⟩
  intro name l hl
  rw [Routine.getElem?_slots (hnames.below hl)]
  by_cases hname : name ∈ d.schema.params.map (·.name)
  · obtain ⟨param, hparam, rfl⟩ := List.mem_map.1 hname
    obtain ⟨i, hi⟩ := List.getElem?_of_mem hparam
    have hslot := grows.kept (Scope.find?_ofParams_of_getElem? distinct hi)
    rw [hl] at hslot
    cases hslot
    rw [bind, find?_zip distinct hi hargs]
  · rw [bind_of_not_mem hname, List.getElem?_eq_none]
    rcases grows.fresh hl with hfound | hslot
    · obtain ⟨param, hparam, rfl, _⟩ := Scope.getElem?_of_find?_ofParams distinct hfound
      exact absurd (List.mem_map_of_mem (List.mem_of_getElem? hparam)) hname
    · rw [Scope.slotCount_ofParams] at hslot
      omega

/-- A routine does what the body of its schema means. -/
theorem Lowers.follows_evalBody {m : Evaluator} {p : Program} {ds : List Definition} {pools : Pools}
    {callers : List (Frame × Bool)} {store : Store} (hp : p.Lowers m.ctx ds pools)
    (declared : m.ctx.registry.All Operation.WellDeclared)
    (h : d.Lowers m.ctx before r marks s') (sound : before.Sound m.ctx.registry)
    (extends' : s'.pools.Extends pools) (source : d.schema.body.IsStatement)
    (hm : m.Matches p ⟨r, callers, s'.scope⟩) (hargs : args.length = d.schema.params.length) :
    p.Follows m.rounds (r.entered args callers store.world) store
      (fun a => p.Returns d.schema.returns callers a.1) (d.evalBody m (d.bind args) store) := by
  have hstores := h.stores hp.named sound hargs
  have hnames := h.names hp.named sound
  cases h with
  | @intro span es type code marks s' ending body distinct lowered ends =>
    have htyping : Expr.typingStatements m.ctx (.ofParams d.schema.params) .void es =
        (type, s'.scope) := lowered.typing
    rw [body] at source
    simp only [evalBody, body, htyping]
    apply Eval.follows_bind (lowered.simulates hp declared hm ⟨Scope.sound_ofParams, sound⟩
      (Setting.covers_of extends' hnames) source
      (Site.has_code _).left rfl hstores (by simp))
    rintro last env' store' t ⟨hvalue, rest, _, locals', rfl, _, _⟩
    exact follows_answer ends ((Site.has_code _).right rfl) hvalue

end Definition

/-- A routine that is entered does what its schema means. -/
theorem Program.Lowers.follows_evaluate {ctx : Context} {ds : List Definition} {pools : Pools}
    {p : Program} (h : p.Lowers ctx ds pools) (declared : ctx.registry.All Operation.WellDeclared)
    (sources : ∀ d ∈ ds, d.schema.body.IsStatement) {fuel : Nat} : ∀ {i : Nat} {d : Definition}
      {r : Routine} {args : List Value} {callers : List (Frame × Bool)} {store : Store},
      ds[i]? = some d → p.routines[i]? = some r → args.length = d.schema.params.length →
        p.Follows fuel (r.entered args callers store.world) store
          (p.Returns d.schema.returns callers)
          (Definition.evaluate ctx ds fuel d.name args store) := by
  induction fuel with
  | zero => exact fun _ _ _ => Program.lasts_zero p _
  | succ fuel ih =>
    intro i d r args callers store hd hr hargs
    obtain ⟨before, r', marks, s', hr', _, hlowers, hsound, hext⟩ := h.routines hd
    rw [hr] at hr'
    cases hr'
    let m : Evaluator := ⟨ctx, d.name, fuel + 1, Definition.evaluate ctx ds fuel⟩
    have hm : m.Matches p ⟨r, callers, s'.scope⟩ := by
      refine ⟨hlowers.name, hlowers.localNames, ?_⟩
      intro j n name sig args stack locals store hentry hlength hi
      obtain ⟨callee, hcallee, rfl, rfl⟩ := h.schemas.1 hentry
      obtain ⟨_, r, _, _, hr, _⟩ := h.routines hcallee
      rw [Definition.signature, Definition.params, List.length_map] at hlength
      exact Site.follows_call hi hr (ih hcallee hr hlength)
    simp only [Definition.evaluate, h.find?_of_getElem? hd]
    exact (hlowers.follows_evalBody (m := m) h declared hsound hext
      (sources d (List.mem_of_getElem? hd)) hm hargs).map fun _ _ _ hreturns => hreturns

end EventScript
