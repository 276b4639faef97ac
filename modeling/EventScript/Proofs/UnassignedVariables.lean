import EventScript.Proofs.AssignedNames
import EventScript.Proofs.Lowering.Derived
import EventScript.Proofs.Machine.Unassigned
import EventScript.Proofs.NeverMalformed

/-!
Errors about unassigned variables name variables. A call has its parameters from the beginning, and a
loop fills its own slots before it reads them, so an empty slot that is read is that of a variable
that the schema assigns somewhere.
-/
namespace EventScript

/-! ### What calls have assigned -/

namespace Frame

/-- The slot holds a value. -/
def Assigned (f : Frame) (slot : Nat) : Prop := ∃ v, f.locals[slot]? = some (some v)

/-- The parameters are assigned, and so is every slot that the code has filled where it is. -/
structure Filled (f : Frame) : Prop where
  params : ∀ slot < f.routine.params.length, f.Assigned slot
  fills : ∀ {slot lo hi}, Code.Fills 0 f.routine.code slot lo hi → lo ≤ f.next → f.next < hi →
    f.Assigned slot

variable {f f' : Frame} {i : Instruction} {slot : Nat}

theorem Moves.assigned (h : f.Moves i f') (hslot : f.Assigned slot) : f'.Assigned slot := by
  obtain ⟨v, hv⟩ := hslot
  rcases h.locals with ⟨_, hlocals⟩ | ⟨k, u, _, hk, hlocals⟩
  · exact ⟨v, by rw [hlocals, hv]⟩
  · by_cases heq : k = slot
    · subst heq
      exact ⟨u, by rw [hlocals, Array.getElem?_setIfInBounds_self_of_lt hk]⟩
    · exact ⟨v, by rw [hlocals, Array.getElem?_setIfInBounds_ne heq, hv]⟩

theorem Moves.assigned_of_stores (h : f.Moves i f') (hi : i.stores? = some slot) :
    f'.Assigned slot := by
  cases i <;> cases hi
  rcases h.locals with ⟨hne, _⟩ | ⟨k, u, heq, hk, hlocals⟩
  · exact absurd rfl (hne slot)
  · cases heq
    exact ⟨u, by rw [hlocals, Array.getElem?_setIfInBounds_self_of_lt hk]⟩

/-- A call that goes on by itself keeps what it has filled. -/
theorem Filled.moves (h : f.Filled) (hi : f.routine.code[f.next]? = some i) (hm : f.Moves i f') :
    f'.Filled where
  params := by
    rw [hm.routine]
    exact fun slot hslot => hm.assigned (h.params slot hslot)
  fills := by
    rw [hm.routine]
    intro slot lo hi' hfills hlo hhi
    have hentered := hfills.entered _ _ hi f'.next
    rw [Nat.zero_add] at hentered
    rcases hentered hm.next hlo hhi with ⟨hlo, hhi⟩ | hstores
    · exact hm.assigned (h.fills hfills hlo hhi)
    · exact hm.assigned_of_stores hstores

/-- A call begins with its arguments. -/
theorem filled_enter {r : Routine} {args : List Value} (hargs : args.length = r.params.length)
    (hslots : r.params.length ≤ r.localCount) :
    Filled { routine := r, locals := r.slots args } where
  params := by
    intro slot hslot
    have hslot : slot < r.params.length := hslot
    refine ⟨args[slot], ?_⟩
    rw [Routine.getElem?_slots (by omega), List.getElem?_eq_getElem (by omega)]
  fills := fun hfills hlo _ => absurd hfills.low (Nat.not_lt.2 hlo)

theorem Filled.withStack (h : f.Filled) (stack : List Value) : Filled { f with stack } :=
  ⟨h.params, h.fills⟩

end Frame

/-- All calls under way have filled what they should have. -/
def State.Filled (s : State) : Prop := ∀ f ∈ s.frames, f.Filled

namespace Program

variable {p : Program} {registry : Registry} {V : View} {relies : Routine.Reliance}
  {answer : StaticType} {s s' : State} {function argc : Nat} {returns : Bool} {r : Routine}

/-- A call passes as many arguments as there are parameters. -/
theorem Keeps.arguments_of_call (hp : p.Keeps registry V relies) (hs : s.Stands V relies answer)
    (hi : s.instruction? = some (.call function argc returns))
    (hr : p.routines[function]? = some r) : argc = r.params.length := by
  obtain ⟨E, marks, σ, hE, hσ, hfits, _⟩ := hs.frame
  obtain ⟨i, hi', hreturns | ⟨τ, heffect, _⟩⟩ := (hp.checks hE).next hσ <;>
    rw [State.instruction?, hi'] at hi <;> cases hi
  · cases hreturns
  · obtain ⟨sig, hsig, hcalled⟩ := Option.bind_eq_some_iff.1 heffect
    obtain ⟨callee, hcallee, hparams, _⟩ := hp.signatures hE hsig
    obtain ⟨hargc, _⟩ := View.of_called hcalled hfits
    rw [hr] at hcallee
    cases hcallee
    rw [hargc, hparams, List.length_map]

theorem Keeps.filled_of_step (hp : p.Keeps registry V relies) (hs : s.Stands V relies answer)
    (hslots : ∀ r ∈ p.routines, r.params.length ≤ r.localCount) (hfilled : s.Filled)
    (h : p.step s = .running s') : s'.Filled := by
  obtain ⟨hframe, hcallers⟩ := List.forall_mem_cons.1 hfilled
  cases advances_of_step h with
  | within hi hsame hmoves =>
    refine List.forall_mem_cons.2 ⟨hframe.moves hi hmoves, ?_⟩
    rwa [hsame]
  | call hi hr hle hs' =>
    have hargc := hp.arguments_of_call hs hi hr
    subst hs'
    refine List.forall_mem_cons.2 ⟨Frame.filled_enter ?_ (hslots _ (Array.mem_of_getElem? hr)),
      List.forall_mem_cons.2 ⟨?_, hcallers⟩⟩
    · rw [List.length_reverse, State.goto_stack, List.length_take, Nat.min_eq_left hle, hargc]
    · exact hframe.moves hi ⟨rfl, .next nofun nofun nofun, .inl ⟨nofun, rfl⟩⟩
  | back _ _ hc hs' =>
    rw [hc, List.map_cons, List.forall_mem_cons] at hcallers
    refine List.forall_mem_cons.2 ⟨?_, hcallers.2⟩
    rw [hs']
    exact hcallers.1.withStack _

theorem Keeps.filled_of_reaches (hp : p.Keeps registry V relies) (hs : s.Stands V relies answer)
    (hslots : ∀ r ∈ p.routines, r.params.length ≤ r.localCount) (hfilled : s.Filled)
    (h : p.Reaches s s') : s'.Filled := by
  induction h with
  | refl => exact hfilled
  | tail hreach hstep ih => exact hp.filled_of_step (hp.stands_of_reaches hs hreach) hslots ih hstep

theorem Keeps.filled_of_visits {c : Callable} {args : List Value} {world : World}
    (hp : c.program.Keeps registry V relies)
    (hslots : ∀ r ∈ c.program.routines, r.params.length ≤ r.localCount)
    (h : c.Visits args world s) : s.Filled := by
  obtain ⟨_, hr, hargs, hreaches⟩ := h
  refine hp.filled_of_reaches (hp.stands_start hr hargs) hslots ?_ hreaches
  refine List.forall_mem_singleton.2 ?_
  exact Frame.filled_enter (Routine.describes_of_checkArguments hargs).length_eq.symm
    (hslots _ (Array.mem_of_getElem? hr))

end Program

/-! ### Variables and their names -/

def Phrase.Assigns (name : String) : Phrase → Prop
  | .expr e | .operand _ e | .body e => e.Assigns name
  | .statements _ es | .arguments _ es => Expr.AnyAssigns name es

theorem Scope.find?_of_declare?_of_ne {s s' : Scope} {name var : String} {type : StaticType}
    {k l : Local} (h : s.declare? var type = some (k, s')) (hne : var ≠ name)
    (hl : s'.find? name = some l) : s.find? name = some l := by
  rcases declare?_eq_some_iff.1 h with ⟨_, rfl⟩ | ⟨_, _, _, rfl⟩
  · exact hl
  · rwa [find?_add_of_ne (Ne.symm hne)] at hl

/-- Only what a tree assigns has a slot after it that had none before. -/
theorem Lowered.assigns_of_find? {ctx : Context} {start : Nat} {phrase : Phrase} {s s' : Lowering}
    {type : StaticType} {code : Code} {marks : List Nat} {name : String} {l : Local}
    (h : Lowered ctx start phrase s type code marks s') (hl : s'.scope.find? name = some l) :
    s.scope.find? name = some l ∨ phrase.Assigns name := by
  induction h with
  | literal _ place =>
    rw [Lowering.scope_of_literal place] at hl
    exact .inl hl
  | read | noStatements | noArguments => exact .inl hl
  | @write _ _ var _ _ _ _ _ _ _ _ _ place ih =>
    by_cases hname : var = name
    · exact .inr (.inl hname)
    · exact (ih (Scope.find?_of_declare?_of_ne place hname hl)).imp_right .inr
  | arithmetic _ _ ih₁ ih₂ | branch _ _ ih₁ ih₂ | statements _ _ ih₁ ih₂ | arguments _ _ ih₁ ih₂ =>
    rcases ih₂ hl with hl | h
    · exact (ih₁ hl).imp_right .inl
    · exact .inr (.inr h)
  | branchElse _ _ _ ih₁ ih₂ ih₃ =>
    rcases ih₃ hl with hl | h
    · rcases ih₂ hl with hl | h
      · exact (ih₁ hl).imp_right .inl
      · exact .inr (.inr (.inl h))
    · exact .inr (.inr (.inr h))
  | loop _ slot unit _ ih₁ ih₂ =>
    rcases ih₂ hl with hl | h
    · obtain ⟨_, _, rfl⟩ := Scope.temporary?_eq_some_iff.1 slot
      rw [Lowering.scope_of_literal unit] at hl
      exact (ih₁ hl).imp_right .inl
    · exact .inr (.inr h)
  | @each _ _ var _ _ _ _ _ _ _ _ _ _ _ _ _ _ _ _ _ _ _ _ _ itemsSlot indexSlot itemSlot
      zero unit _ ih₁ ih₂ =>
    rcases ih₂ hl with hl | h
    · by_cases hname : var = name
      · exact .inr (.inl hname)
      · obtain ⟨_, _, rfl⟩ := Scope.temporary?_eq_some_iff.1 itemsSlot
        obtain ⟨_, _, rfl⟩ := Scope.temporary?_eq_some_iff.1 indexSlot
        rw [Lowering.scope_of_literal unit, Lowering.scope_of_literal zero] at hl
        have hold := Scope.find?_of_declare?_of_ne itemSlot hname hl
        exact (ih₁ hold).imp_right fun h => .inr (.inl h)
    · exact .inr (.inr (.inr h))
  | block _ ih | operand _ _ _ ih | body _ ih => exact ih hl
  | call _ _ made ih =>
    rw [Lowering.scope_of_target made] at hl
    exact ih hl

namespace Definition

variable {ctx : Context} {d : Definition} {before : Pools} {r : Routine} {marks : List Nat}
  {s' : Lowering} {slot : Nat}

theorem Lowers.params_le (named : ctx.Named) (h : d.Lowers ctx before r marks s') :
    r.params.length ≤ r.localCount := by
  obtain ⟨_, _, lowered, _⟩ := h
  have hcount := (lowered.grows named).scope.count
  rwa [Scope.slotCount_ofParams, ← List.length_map] at hcount

theorem Lowers.routine (h : d.Lowers ctx before r marks s') :
    r.name = d.name ∧ r.params.length = d.schema.params.length := by
  obtain ⟨_⟩ := h
  exact ⟨rfl, List.length_map _⟩

/-- A variable with a slot behind those of the parameters is none of them, and is assigned. -/
theorem Lowers.assigns {name : String} {l : Local} (named : ctx.Named)
    (h : d.Lowers ctx before r marks s') (hl : s'.scope.find? name = some l)
    (hslot : d.schema.params.length ≤ l.slot) :
    d.schema.body.Assigns name ∧ ∀ q ∈ d.schema.params, q.name ≠ name := by
  obtain ⟨body, distinct, lowered, _⟩ := h
  constructor
  · rw [body]
    rcases lowered.assigns_of_find? hl with hparam | hassigns
    · obtain ⟨q, hq, _⟩ := Scope.getElem?_of_find?_ofParams distinct hparam
      exact absurd (List.getElem?_eq_some_iff.1 hq).1 (Nat.not_lt.2 hslot)
    · exact hassigns
  · rintro q hq rfl
    obtain ⟨i, hi⟩ := List.getElem?_of_mem hq
    have hkept := (lowered.grows named).scope.kept (Scope.find?_ofParams_of_getElem? distinct hi)
    rw [hl] at hkept
    cases hkept
    exact absurd (List.getElem?_eq_some_iff.1 hi).1 (Nat.not_lt.2 hslot)

/-- The end of a body neither jumps nor reads a slot. -/
theorem Ends.straight {type : StaticType} {ending : Code} {i : Instruction} (h : d.Ends type ending)
    (hi : i ∈ ending) : i.target? = none ∧ i.loads? = none := by
  have hplain : i.isStraight = true → i.target? = none ∧ i.loads? = none := fun h =>
    ⟨(Instruction.of_isStraight h).2.1, (Instruction.of_isStraight h).2.2.1⟩
  cases h with
  | nothing =>
    rcases Array.mem_append.1 hi with hi | hi
    · exact hplain (Lowered.isStraight_of_mem_dropValue hi)
    · rw [Array.mem_singleton.1 hi]
      exact ⟨rfl, rfl⟩
  | text =>
    simp only [List.mem_toArray, List.mem_cons, List.not_mem_nil, or_false] at hi
    rcases hi with rfl | rfl <;> exact ⟨rfl, rfl⟩
  | value =>
    rcases Array.mem_append.1 hi with hi | hi
    · exact hplain (Lowered.isStraight_of_mem_expectation hi)
    · rw [Array.mem_singleton.1 hi]
      exact ⟨rfl, rfl⟩

/-- A slot that code reads is that of a variable, or the code fills it first. -/
theorem Lowers.slot_of_loadLocal (named : ctx.Named) (sound : before.Sound ctx.registry)
    (h : d.Lowers ctx before r marks s') {n : Nat} (hi : r.code[n]? = some (.loadLocal slot)) :
    (∃ name l, s'.scope.find? name = some l ∧ l.slot = slot) ∨
      ∃ lo hi, Code.Fills 0 r.code slot lo hi ∧ lo ≤ n ∧ n < hi := by
  obtain ⟨_, _, lowered, ends⟩ := h
  rename_i code ending _ _
  have hflows := lowered.flows named ⟨Scope.sound_ofParams, sound⟩
  have hn : n < code.size := by
    by_contra hn
    have hi : (code ++ ending)[n]? = some (.loadLocal slot) := hi
    rw [Array.getElem?_append_right (Nat.le_of_not_lt hn)] at hi
    cases (ends.straight (Array.mem_of_getElem? hi)).2
  have hi : (code ++ ending)[n]? = some (.loadLocal slot) := hi
  rw [Array.getElem?_append_left hn] at hi
  by_cases hnamed : ∃ name l, s'.scope.find? name = some l ∧ l.slot = slot
  · exact .inl hnamed
  · have hhides : s'.scope.Hides slot :=
      ⟨hflows.below n _ hi slot rfl, fun name l hl heq => hnamed ⟨name, l, hl, heq⟩⟩
    obtain ⟨lo, hi', hfills⟩ := hflows.fills slot hhides
    have hbounds := hfills.loaded n _ hi rfl
    rw [Nat.zero_add] at hbounds
    exact .inr ⟨lo, hi', hfills.append fun i hi => ends.straight hi, hbounds⟩

end Definition

/-! ### Whole runs -/

theorem not_isUnassigned_of_checkKinds : ∀ {params : List (String × StaticType)}
    {args : List Value} {e : RuntimeError}, checkKinds params args = .error e → ¬e.IsUnassigned
  | [], _, _, h | _ :: _, [], _, h => by cases h
  | (name, type) :: params, v :: args, e, h => by
    unfold checkKinds at h
    split at h
    · split at h
      · exact not_isUnassigned_of_checkKinds h
      · cases h
        exact id
    · exact not_isUnassigned_of_checkKinds h

theorem Routine.not_isUnassigned_of_checkArguments {r : Routine} {args : List Value}
    {e : RuntimeError} (h : r.checkArguments args = .error e) : ¬e.IsUnassigned := by
  unfold checkArguments at h
  split at h
  · exact not_isUnassigned_of_checkKinds h
  · cases h
    exact id

namespace Program

variable {p : Program} {s : State} {answer : Answer} {w w' : World} {fuel : Nat}

/-- The last step of a run. -/
theorem exists_reaches_of_run (h : p.run fuel s = some (answer, w)) :
    ∃ s', p.Reaches s s' ∧ p.step s' = .finished answer w := by
  induction fuel generalizing s with
  | zero => cases h
  | succ fuel ih =>
    unfold run at h
    split at h
    · rename_i t hstep
      obtain ⟨s', hreach, hlast⟩ := ih h
      exact ⟨s', .head hstep hreach, hlast⟩
    · rename_i hstep
      cases h
      exact ⟨s, .refl, hstep⟩

/-- A call whose arguments are taken and which may begin ends where a run ends. -/
theorem exists_visits_of_invoke {c : Callable} {args : List Value} (h : c.invoke fuel args w =
    some (answer, w')) (hindex : ∀ {i}, c.entry = .routine i → i < c.program.routines.size) :
    (∃ s, c.Visits args w s ∧ c.program.step s = .finished answer w') ∨
      answer = .ok none ∨ answer = .error (.callDepth c.program.limits.callDepth) ∨
        ∃ r e, Routine.checkArguments r args = .error e ∧ answer = .error e := by
  cases hentry : c.entry with
  | initializer =>
    simp only [Callable.invoke, hentry] at h
    cases h
    exact .inr (.inl rfl)
  | routine i =>
    obtain ⟨r, hr⟩ : ∃ r, c.program.routines[i]? = some r :=
      ⟨_, Array.getElem?_eq_getElem (hindex hentry)⟩
    simp only [Callable.invoke, hentry, hr] at h
    cases hargs : r.checkArguments args with
    | error e =>
      rw [hargs] at h
      cases h
      exact .inr (.inr (.inr ⟨_, _, hargs, rfl⟩))
    | ok =>
      simp only [hargs, execute, enter, hr] at h
      split at h
      · rename_i hframe
        split at hframe
        · cases hframe
        · cases hframe
          obtain ⟨s, hreaches, hlast⟩ := exists_reaches_of_run h
          exact .inl ⟨s, .intro hentry hr hargs hreaches, hlast⟩
      · rename_i hframe
        split at hframe
        · cases hframe
          cases h
          exact .inr (.inr (.inl rfl))
        · cases hframe

end Program

/-- The call carries out what the schema is lowered to. -/
def Frame.CarriesOut (ctx : Context) (d : Definition) (frame : Frame) : Prop :=
  ∃ before s', d.lower ctx { pools := before } = .ok (frame.routine, s')

/-- The callback raises no error about an unassigned variable. -/
def Operation.NeverUnassigned (op : Operation) : Prop := ∀ e, op.Raises e → ¬e.IsUnassigned

namespace Program.Lowers

variable {ctx : Context} {ds : List Definition} {pools : Pools} {p : Program} {frame : Frame}
  {awaited : Shape} {slot : Nat}

theorem params_le (h : p.Lowers ctx ds pools) : ∀ r ∈ p.routines, r.params.length ≤ r.localCount := by
  intro r hr
  obtain ⟨i, hi⟩ := Array.getElem?_of_mem hr
  have hlt : i < ds.length := by
    rw [← h.size]
    exact (Array.getElem?_eq_some_iff.1 hi).1
  obtain ⟨_, _, _, _, hr', _, hlowers, _⟩ := h.routines (List.getElem?_eq_getElem hlt)
  rw [hi] at hr'
  cases hr'
  exact hlowers.params_le h.named

/-- No pooled callback raises an error that no registered operation raises. -/
theorem not_raised {e : RuntimeError} (h : p.Lowers ctx ds pools)
    (hnever : ctx.registry.All fun op => ¬op.Raises e) {call : HostFunction} (hcall : call ∈ p.hosts)
    (args : List Value) (heap heap' : Heap) : call args heap ≠ (.error e, heap') := by
  intro heq
  obtain ⟨_, op, hop, haction⟩ := h.operation_of_mem_hosts hcall
  exact hnever.of hop ⟨call, args, heap, heap', haction, heq⟩

/-- What a call reads is a variable of the schema, or a slot that it has filled. -/
theorem variable_or_assigned (h : p.Lowers ctx ds pools)
    (hstands : frame.Stands View.counting (p.reliance ctx ds pools) awaited) (hfilled : frame.Filled)
    (hi : frame.routine.code[frame.next]? = some (.loadLocal slot)) :
    frame.Assigned slot ∨ ∃ d ∈ ds, frame.CarriesOut ctx d ∧ d.name = frame.routine.name ∧
      frame.routine.localNames[slot]?.join = some (frame.routine.localName slot) ∧
      d.schema.body.Assigns (frame.routine.localName slot) ∧
      ∀ q ∈ d.schema.params, q.name ≠ frame.routine.localName slot := by
  obtain ⟨_, marks, _, ⟨_, d, hd, before, s', hlower, hlowers, hsound, _⟩, _⟩ := hstands
  obtain ⟨hname, hparams⟩ := hlowers.routine
  rcases hlowers.slot_of_loadLocal h.named hsound hi with ⟨name, l, hl, rfl⟩ | ⟨_, _, hfills, hlo, hhi⟩
  · by_cases hparam : l.slot < frame.routine.params.length
    · exact .inl (hfilled.params _ hparam)
    · have hnamed := hlowers.join_localNames (hlowers.names h.named hsound) hl
      rw [Routine.localName, hnamed]
      refine .inr ⟨d, hd, ⟨before, s', hlower⟩, hname.symm, rfl, hlowers.assigns h.named hl ?_⟩
      rw [← hparams]
      exact Nat.le_of_not_lt hparam
  · exact .inl (hfilled.fills hfills hlo hhi)

end Program.Lowers

namespace Submission

variable {registry : Registry} {limits : Limits} {source : Submission} {p : Program}
  {ds : List Definition} {schemas : Table String Signature} {c : Callable} {args : List Value}
  {world : World}

/-- Slots without a name are filled when they are read. A run that ends because a variable is not
assigned ends in a schema that assigns it somewhere and does not have it for a parameter. -/
theorem unassigned_is_variable (hosts : registry.WithHosts Operation.NeverUnassigned)
    (hds : source.definitions = .ok ds)
    (hschemas : Definition.signatures Table.empty ds = .ok schemas)
    (h : source.compile registry limits = .ok p) (hc : c.IsEntryOf p) (args : List Value)
    (world : World) :
    (∀ s, c.Visits args world s → ∀ slot, s.instruction? = some (.loadLocal slot) →
      s.frame.routine.localNames[slot]?.join = none → s.frame.Assigned slot) ∧
    ∀ fuel function name world',
      c.invoke fuel args world = some (.error (.unassigned function name), world') →
      ∃ s, c.Visits args world s ∧
        p.step s = .finished (.error (.unassigned function name)) world' ∧
        s.frame.routine.name = function ∧
        ∃ d ∈ ds, s.frame.CarriesOut ⟨registry, schemas⟩ d ∧ d.name = function ∧
          d.schema.body.Assigns name ∧ (∀ q ∈ d.schema.params, q.name ≠ name) ∧
          name ≠ "<temporary>" := by
  have declared := Registry.wellDeclared_of_withHosts hosts
  have sources := isSource_of_definitions hds
  rw [compile_eq, hds] at h
  obtain ⟨schemas', pools, hschemas', hp, _⟩ := Program.lowers_of_ofDefinitions declared.named
    (fun d hd => (sources d hd).body.unbound) h
  rw [hschemas] at hschemas'
  cases hschemas'
  obtain ⟨rfl, hindex⟩ := hc
  have hkeeps := hp.keeps_counting declared
  have hread {s : State} {slot : Nat} (hs : c.Visits args world s)
      (hi : s.instruction? = some (.loadLocal slot)) :=
    have ⟨_, hstands⟩ := hkeeps.stands_of_visits hs
    hp.variable_or_assigned hstands.frame
      (hkeeps.filled_of_visits hp.params_le hs _ List.mem_cons_self) hi
  constructor
  · intro s hs slot hi hunnamed
    refine (hread hs hi).resolve_right ?_
    rintro ⟨d, _, _, _, hname, _⟩
    rw [hunnamed] at hname
    cases hname
  · intro fuel function name world' hinvoke
    rcases Program.exists_visits_of_invoke hinvoke hindex with
      ⟨s, hs, hlast⟩ | h | h | ⟨r, e, hargs, h⟩
    · refine ⟨s, hs, hlast, ?_⟩
      have hfree := (Program.free_eq_error hlast).resolve_right (by rintro (h | ⟨h, _⟩) <;> cases h)
      rcases Program.unassigned_of_free hfree with
        ⟨slot, hi, hempty, rfl, rfl⟩ | ⟨call, hcall, passed, heap, heap', hraised⟩
      · refine ⟨rfl, ?_⟩
        rcases hread hs hi with ⟨v, hv⟩ | ⟨d, hd, hcarries, hname, _, hassigns, hparams⟩
        · rw [hempty] at hv
          cases hv
        · refine ⟨d, hd, hcarries, hname, hassigns, hparams, fun heq => not_isWord_temporary ?_⟩
          exact heq ▸ isWord_of_definitions hds hd hassigns
      · refine absurd hraised (hp.not_raised ?_ hcall passed heap heap')
        exact Registry.all_of_withHosts hosts
          (fun _ hop => Operation.not_raises_of_mem_standard hop)
          fun op _ _ hop hraises => hop _ hraises trivial
    · cases h
    · cases h
    · cases h
      exact absurd trivial (Routine.not_isUnassigned_of_checkArguments hargs)

end Submission

/-! ### A schema that reads what it may not have assigned -/

namespace Definition
/-- A schema that assigns its variable in some cases only. -/
def hasty : Definition where
  name := "f"
  schema := {
    name? := some "f"
    params := [⟨"b", .bool, ⟨9, 15⟩⟩]
    returns := .bool
    body := .block ⟨25, 45⟩ [
      .branch ⟨27, 41⟩ (.read ⟨30, 31⟩ "b")
        (.block ⟨32, 41⟩ [.write ⟨34, 39⟩ "x" (.read ⟨38, 39⟩ "b")]) none,
      .read ⟨42, 43⟩ "x"]
    span := ⟨0, 45⟩ }

def hastyRoutine : Routine where
  name := "f"
  resource? := none
  params := [("b", .bool)]
  returns := .bool
  code := #[.loadLocal 0, .jumpIfFalse 4, .loadLocal 0, .storeLocal 1, .loadLocal 1, .returnValue]
  localCount := 2
  localNames := #[some "b", some "x"]

theorem lowered_hasty (ctx : Context) (pools : Pools) {s s' : Scope}
    (hb : s.find? "b" = some ⟨.bool, 0⟩) (hx : s.declare? "x" .bool = some (⟨.bool, 1⟩, s'))
    (hx' : s'.find? "x" = some ⟨.bool, 1⟩) : ∃ marks, Lowered ctx 0 (.statements .void [
      .branch ⟨27, 41⟩ (.read ⟨30, 31⟩ "b")
        (.block ⟨32, 41⟩ [.write ⟨34, 39⟩ "x" (.read ⟨38, 39⟩ "b")]) none,
      .read ⟨42, 43⟩ "x"]) ⟨pools, s⟩ .bool
      #[.loadLocal 0, .jumpIfFalse 4, .loadLocal 0, .storeLocal 1, .loadLocal 1] marks ⟨pools, s'⟩ := by
  have hread {start span} : Lowered ctx start (.operand .bool (.read span "b")) ⟨pools, s⟩ .bool
      #[.loadLocal 0] [] ⟨pools, s⟩ :=
    .of_eq (.operand (.read (s := ⟨pools, s⟩) hb) nofun rfl) (by rfl)
  have hwrite {start span span'} : Lowered ctx start (.expr (.write span "x" (.read span' "b")))
      ⟨pools, s⟩ .void #[.loadLocal 0, .storeLocal 1] [] ⟨pools, s'⟩ :=
    @Lowered.write _ _ _ _ _ _ _ _ _ _ ⟨.bool, 1⟩ _ hread hx
  have hthen {start span span' span''} :
      Lowered ctx start (.body (.block span [.write span' "x" (.read span'' "b")])) ⟨pools, s⟩ .void
        #[.loadLocal 0, .storeLocal 1] [start] ⟨pools, s'⟩ :=
    .of_eq (.body (.block (.statements hwrite .noStatements))) (by rfl)
  have hlast {start span} : Lowered ctx start (.expr (.read span "x")) ⟨pools, s'⟩ .bool
      #[.loadLocal 1] [] ⟨pools, s'⟩ := .read (s := ⟨pools, s'⟩) hx'
  exact ⟨_, .of_eq (.statements (.branch hread hthen) (.statements hlast .noStatements)) (by rfl)⟩

theorem lower_hasty (ctx : Context) : ∃ s, hasty.lower ctx { pools := {} } =
    .ok (hastyRoutine, s) ∧ s.pools = {} := by
  have hfree (name : String) : Scope.empty.find? name = none := by simp [Scope.find?, Scope.empty]
  have hx : (Scope.empty.add "b" .bool).find? "x" = none := by
    rw [Scope.find?_add_of_ne (by decide), hfree]
  have hdeclare : (Scope.empty.add "b" .bool).declare? "x" .bool =
      some (⟨.bool, 1⟩, (Scope.empty.add "b" .bool).add "x" .bool) :=
    Scope.declare?_eq_some_iff.2 (.inr ⟨hx, (by decide : 1 < 65535), rfl, rfl⟩)
  have hnames : ((Scope.empty.add "b" .bool).add "x" .bool).slotNames = #[some "b", some "x"] := by
    have hentries : ((Scope.empty.add "b" .bool).add "x" .bool).locals.entries =
        #[("b", ⟨.bool, 0⟩), ("x", ⟨.bool, 1⟩)] := by
      rw [Scope.add, Table.entries_insert_of_find?_none hx, Scope.add,
        Table.entries_insert_of_find?_none (hfree _)]
      rfl
    rw [Scope.slotNames, hentries]
    rfl
  obtain ⟨marks, hlowered⟩ := lowered_hasty ctx {} Scope.find?_add_self hdeclare
    Scope.find?_add_self
  have hlowers := Lowers.intro (d := hasty) rfl (by decide) hlowered
    (.value (by decide) (by decide) (by decide))
  rw [hnames] at hlowers
  exact ⟨_, hlowers.lower (by decide) (by decide), rfl⟩

end Definition

def Program.hasty : Program where
  routines := #[Definition.hastyRoutine]

theorem Program.ofDefinitions_hasty (registry : Registry) :
    ofDefinitions registry {} [.hasty] = .ok hasty := by
  obtain ⟨s, hs, hpools⟩ := Definition.lower_hasty _
  rw [ofDefinitions_singleton {} hs, hpools]
  simp [hasty]

namespace Submission

def hasty : Submission := .text "schema f(b bool) -> bool \x7b if b \x7b x = b \x7d x \x7d"

theorem definitions_hasty : hasty.definitions = .ok [.hasty] := by cbv

theorem compile_hasty (registry : Registry) : hasty.compile registry {} = .ok .hasty := by
  rw [compile_eq, definitions_hasty]
  exact Program.ofDefinitions_hasty registry

theorem hasty_variable_is_unassigned : Registry.standard.WithHosts Operation.NeverUnassigned ∧
    hasty.compile Registry.standard {} = .ok .hasty ∧
    Callable.invoke ⟨.hasty, .routine 0⟩ 3 [.number .zero] .blank =
      some (.error (.unassigned "f" "x"), .blank) ∧
    Definition.hasty.schema.body.Assigns "x" := by
  have entry : Callable.IsEntryOf ⟨.hasty, .routine 0⟩ .hasty := by
    refine ⟨rfl, ?_⟩
    rintro _ ⟨⟩
    decide
  have invoke : Callable.invoke ⟨.hasty, .routine 0⟩ 3 [.number .zero] .blank =
      some (.error (.unassigned "f" "x"), .blank) := rfl
  obtain ⟨_, _, _, _, d, hd, _, _, hassigns, _⟩ := (unassigned_is_variable .standard
    definitions_hasty (Definition.signatures_singleton .hasty) (compile_hasty _) entry
    [.number .zero] .blank).2 3 _ _ _ invoke
  cases List.mem_singleton.1 hd
  exact ⟨.standard, compile_hasty _, invoke, hassigns⟩

end Submission

end EventScript
