import EventScript.Proofs.Lowering.Growth

/-!
What a schema and a program are lowered to: parameters take the first slots, the code of the body
ends in its return, and routines stand in the order of their schemas with pools that all share.
-/
namespace EventScript

/-- The scope in which a body begins. -/
def Scope.ofParams (ps : List Param) : Scope :=
  ps.foldl (fun s p => s.add p.name p.type) Scope.empty

namespace Scope

variable {s : Scope} {ps : List Param} {name : String} {l : Local}

theorem slotCount_foldl_add : (ps.foldl (fun s p => s.add p.name p.type) s).slotCount =
    s.slotCount + ps.length := by
  induction ps generalizing s with
  | nil => rfl
  | cons p ps ih =>
    rw [List.foldl_cons, ih, List.length_cons]
    simp only [add]
    omega

theorem sound_foldl_add (h : s.Sound) :
    (ps.foldl (fun s p => s.add p.name p.type) s).Sound := by
  induction ps generalizing s with
  | nil => exact h
  | cons p ps ih => exact ih (sound_add h)

theorem find?_foldl_add_of_not_mem (h : name ∉ ps.map (·.name)) :
    (ps.foldl (fun s p => s.add p.name p.type) s).find? name = s.find? name := by
  induction ps generalizing s with
  | nil => rfl
  | cons p ps ih =>
    rw [List.map_cons, List.mem_cons, not_or] at h
    rw [List.foldl_cons, ih h.2, find?_add_of_ne h.1]

theorem find?_foldl_add_of_getElem? {i : Nat} {p : Param} (hd : (ps.map (·.name)).Nodup)
    (hp : ps[i]? = some p) : (ps.foldl (fun s p => s.add p.name p.type) s).find? p.name =
      some ⟨p.type, s.slotCount + i⟩ := by
  induction ps generalizing s i with
  | nil => cases hp
  | cons q ps ih =>
    rw [List.map_cons, List.nodup_cons] at hd
    rw [List.foldl_cons]
    cases i with
    | zero =>
      cases hp
      rw [find?_foldl_add_of_not_mem hd.1]
      exact find?_add_self
    | succ i =>
      rw [List.getElem?_cons_succ] at hp
      rw [ih hd.2 hp]
      simp only [add]
      rw [Nat.add_assoc, Nat.add_comm 1 i]

@[simp] theorem slotCount_ofParams : (ofParams ps).slotCount = ps.length := by
  rw [ofParams, slotCount_foldl_add]
  exact Nat.zero_add _

theorem sound_ofParams : (ofParams ps).Sound := sound_foldl_add sound_empty

/-- A parameter has the slot of its position. -/
theorem find?_ofParams_of_getElem? {i : Nat} {p : Param} (hd : (ps.map (·.name)).Nodup)
    (hp : ps[i]? = some p) : (ofParams ps).find? p.name = some ⟨p.type, i⟩ := by
  rw [ofParams, find?_foldl_add_of_getElem? hd hp]
  simp [empty]

theorem getElem?_of_find?_ofParams (hd : (ps.map (·.name)).Nodup)
    (h : (ofParams ps).find? name = some l) :
    ∃ p, ps[l.slot]? = some p ∧ p.name = name ∧ p.type = l.type := by
  by_cases hn : name ∈ ps.map (·.name)
  · obtain ⟨p, hp, rfl⟩ := List.mem_map.1 hn
    obtain ⟨i, hi⟩ := List.getElem?_of_mem hp
    rw [find?_ofParams_of_getElem? hd hi] at h
    cases h
    exact ⟨p, hi, rfl, rfl⟩
  · rw [ofParams, find?_foldl_add_of_not_mem hn] at h
    simp [find?, empty] at h

end Scope

/-- The code that ends a body whose last statement is of this type. -/
inductive Definition.Ends (d : Definition) : StaticType → Code → Prop where
  | nothing {type} (returns : d.schema.returns = .void) :
      Ends d type (dropValue type ++ #[.returnVoid])
  /-- A string is made text. -/
  | text (returns : d.schema.returns = .text) : Ends d .string #[.toText, .returnValue]
  | value {type} (returns : d.schema.returns ≠ .void) (valued : type ≠ .void)
      (fits : d.schema.returns.accepts type = true) :
      Ends d type (expectation d.schema.returns type ++ #[.returnValue])

/-- The routine of a schema, with the offsets at which statements begin and loops come round. -/
inductive Definition.Lowers (ctx : Context) (d : Definition) (pools : Pools) :
    Routine → List Nat → Lowering → Prop where
  | intro {span es type code marks s' ending} (body : d.schema.body = .block span es)
      (distinct : (d.schema.params.map (·.name)).Nodup)
      (lowered : Lowered ctx 0 (.statements .void es) ⟨pools, .ofParams d.schema.params⟩ type code
        marks s')
      (ends : d.Ends type ending) :
      Lowers ctx d pools
        { name := d.name, resource? := d.resource?, params := d.params,
          returns := d.schema.returns, code := code ++ ending, localCount := s'.scope.slotCount,
          localNames := s'.scope.slotNames } marks s'

namespace Definition

variable {ctx : Context} {d : Definition}

theorem of_declareParams : ∀ {ps : List Param} {s s' : Lowering},
    declareParams ps s = .ok ((), s') →
      s' = { s with scope := ps.foldl (fun s p => s.add p.name p.type) s.scope } ∧
        (ps.map (·.name)).Nodup ∧ ∀ p ∈ ps, s.scope.find? p.name = none
  | [], s, s', h => by
    simp only [declareParams, Lower.pure_eq_ok] at h
    exact ⟨h.2, by simp⟩
  | p :: ps, s, s', h => by
    simp only [declareParams, Lower.bind_eq_ok, Lower.find?_eq_ok, Lower.ite_eq_ok,
      Lower.declare_eq_ok, Lower.lift_eq_ok, refuse_eq_ok, false_and, and_false, exists_false,
      false_or] at h
    obtain ⟨_, s, ⟨rfl, rfl⟩, hnew, _, _, ⟨l, scope, hl, rfl, rfl⟩, h⟩ := h
    have hnone : s.scope.find? p.name = none := by simpa using hnew
    obtain ⟨rfl, hd, hfree⟩ := of_declareParams h
    rcases Scope.declare?_eq_some_iff.1 hl with ⟨hsome, _⟩ | ⟨_, _, rfl, rfl⟩
    · rw [hnone] at hsome
      cases hsome
    have hne : ∀ q ∈ ps, q.name ≠ p.name := by
      intro q hq heq
      have := hfree q hq
      rw [heq, Scope.find?_add_self] at this
      cases this
    refine ⟨rfl, ?_, ?_⟩
    · rw [List.map_cons, List.nodup_cons]
      refine ⟨?_, hd⟩
      rw [List.mem_map]
      rintro ⟨q, hq, heq⟩
      exact hne q hq heq
    · intro q hq
      rcases List.mem_cons.1 hq with rfl | hq
      · exact hnone
      · rw [← hfree q hq]
        exact (Scope.find?_add_of_ne (hne q hq)).symm

theorem ends_of_conversion {type : StaticType} {span : Span} {check : Code}
    (hreturns : d.schema.returns ≠ .void) (h : d.conversion type span = .ok check) :
    d.Ends type (check ++ #[.returnValue]) := by
  unfold conversion at h
  simp only at h
  split at h
  · cases h
  · rename_i hvalued
    split at h
    · rename_i htext
      obtain ⟨htext, rfl⟩ := htext
      cases h
      exact .text htext
    · split at h
      · rename_i hfits
        cases h
        exact .value hreturns hvalued hfits
      · cases h

/-- What lowering a schema answers is its routine. -/
theorem lowers_of_lower {pools : Pools} {r : Routine} {s' : Lowering} (hu : d.schema.body.Unbound)
    (h : d.lower ctx { pools } = .ok (r, s')) : ∃ marks, d.Lowers ctx pools r marks s' := by
  simp only [lower, Lower.bind_eq_ok, Lower.get_eq_ok, Lower.pure_eq_ok] at h
  obtain ⟨_, s₁, hparams, code, s₂, hbody, _, _, ⟨rfl, rfl⟩, rfl, rfl⟩ := h
  obtain ⟨rfl, hd, _⟩ := of_declareParams hparams
  cases hblock : d.schema.body with
  | block span es =>
    rw [hblock] at hu
    simp only [lowerBody, hblock, Lower.bind_eq_ok, Lower.ite_eq_ok, Lower.pure_eq_ok,
      Lower.lift_eq_ok] at hbody
    obtain ⟨⟨type, _⟩, s₃, hes, hend⟩ := hbody
    obtain ⟨rest, marks, rfl, hlowered⟩ := Expr.lowered_of_lowerStatements es hu hes
    have key : ∀ ending, d.Ends type ending → code = rest ++ ending → s' = s₃ →
        ∃ marks, d.Lowers ctx pools
          { name := d.name, resource? := d.resource?, params := d.params,
            returns := d.schema.returns, code, localCount := s'.scope.slotCount,
            localNames := s'.scope.slotNames } marks s' := by
      rintro ending hends rfl rfl
      exact ⟨marks, .intro hblock hd hlowered hends⟩
    rcases hend with ⟨hvoid, rfl, rfl⟩ | ⟨hvalue, check, _, ⟨hcheck, rfl⟩, rfl, rfl⟩
    · exact key _ (.nothing hvoid) (by simp) rfl
    · exact key _ (ends_of_conversion hvalue hcheck) (by simp) rfl
  | _ => simp only [lowerBody, hblock, Lower.lift_eq_ok, refuse_eq_ok, false_and] at hbody

/-- The pools in which a schema begins are those that the schemas before it have left. -/
theorem lowers_of_lowerWith {pools pools' : Pools} {r : Routine} (hu : d.schema.body.Unbound)
    (h : d.lowerWith ctx pools = .ok (r, pools')) : ∃ marks s',
      d.lower ctx { pools } = .ok (r, s') ∧ d.Lowers ctx pools r marks s' ∧ s'.pools = pools' := by
  obtain ⟨⟨r₁, s'⟩, hl, heq⟩ := map_eq_ok.1 (mapError_eq_ok.1 h)
  obtain ⟨rfl, rfl⟩ := Prod.mk.inj heq
  obtain ⟨marks, hlowers⟩ := lowers_of_lower hu hl
  exact ⟨marks, s', hl, hlowers, rfl⟩

end Definition

namespace Definition

variable {ctx : Context}

variable {d : Definition} {pools : Pools} {r : Routine} {marks : List Nat} {s' : Lowering}

theorem Lowers.extends (named : ctx.Named) (h : d.Lowers ctx pools r marks s') :
    pools.Extends s'.pools ∧ (pools.Sound ctx.registry → s'.pools.Sound ctx.registry) := by
  obtain ⟨_, _, lowered, _⟩ := h
  have grows := lowered.grows named
  exact ⟨grows.pools, fun hs => (grows.sound ⟨Scope.sound_ofParams, hs⟩).hosts⟩

/-- Messages call the slot of a variable by its name. -/
theorem Lowers.join_localNames {name : String} {l : Local} (h : d.Lowers ctx pools r marks s')
    (names : s'.scope.Sound) (hl : s'.scope.find? name = some l) :
    r.localNames[l.slot]?.join = some name := by
  obtain ⟨_⟩ := h
  rw [Scope.slotNames_of_find? names hl]
  rfl

end Definition

/-- A program with the schemas and the pools it was lowered from. -/
structure Program.Lowers (ctx : Context) (ds : List Definition) (pools : Pools) (p : Program) :
    Prop where
  named : ctx.Named
  sound : pools.Sound ctx.registry
  constants : p.constants = pools.literals.entries.map (·.1)
  hosts : p.hosts = pools.hosts.entries.map (·.2)
  schemas : ∀ {i : Nat} {name sig}, ctx.schemas.entries[i]? = some (name, sig) ↔
    ∃ d, ds[i]? = some d ∧ d.name = name ∧ d.signature = sig
  size : p.routines.size = ds.length
  routines : ∀ {i : Nat} {d}, ds[i]? = some d → ∃ before r marks s',
    p.routines[i]? = some r ∧ d.lower ctx { pools := before } = .ok (r, s') ∧
      d.Lowers ctx before r marks s' ∧ before.Sound ctx.registry ∧ s'.pools.Extends pools

/-- Every callback of the program is that of a registered operation. -/
theorem Program.Lowers.operation_of_mem_hosts {ctx : Context} {ds : List Definition} {pools : Pools}
    {p : Program} (h : p.Lowers ctx ds pools) {call : HostFunction} (hcall : call ∈ p.hosts) :
    ∃ name op, ctx.registry.find? name = some op ∧ op.action = .host call := by
  rw [h.hosts] at hcall
  obtain ⟨⟨name, call⟩, hentry, rfl⟩ := Array.mem_map.1 hcall
  obtain ⟨i, hi⟩ := Array.getElem?_of_mem hentry
  exact ⟨name, h.sound hi⟩

namespace Definition

variable {ctx : Context}

theorem entries_of_signatures : ∀ {ds : List Definition} {known schemas : Table String Signature},
    signatures known ds = .ok schemas → schemas.entries =
      known.entries ++ (ds.map fun d => (d.name, d.signature)).toArray
  | [], known, schemas, h => by
    cases h
    simp
  | d :: ds, known, schemas, h => by
    unfold signatures at h
    split at h
    · exact (refuse_eq_ok.1 (mapError_eq_ok.1 h)).elim
    · rename_i hnew
      have hnone : known.find? d.name = none := by
        rw [← Table.position?_eq_none_iff]
        simpa [Table.contains] using hnew
      rw [entries_of_signatures h, Table.entries_insert_of_find?_none hnone]
      simp

theorem of_lowerAll (named : ctx.Named) : ∀ {ds : List Definition} {pools pools' : Pools}
    {routines routines' : Array Routine}, (∀ d ∈ ds, d.schema.body.Unbound) →
      pools.Sound ctx.registry → lowerAll ctx pools routines ds = .ok (routines', pools') →
        pools'.Sound ctx.registry ∧ pools.Extends pools' ∧ ∃ new : List Routine,
          routines'.toList = routines.toList ++ new ∧ new.length = ds.length ∧
          ∀ {i : Nat} {d}, ds[i]? = some d → ∃ before r marks s', new[i]? = some r ∧
            d.lower ctx { pools := before } = .ok (r, s') ∧ d.Lowers ctx before r marks s' ∧
            before.Sound ctx.registry ∧ s'.pools.Extends pools'
  | [], pools, pools', routines, routines', _, hs, h => by
    cases h
    exact ⟨hs, .refl _, [], by simp, rfl, by simp⟩
  | d :: ds, pools, pools', routines, routines', hu, hs, h => by
    simp only [lowerAll, bind_eq_ok] at h
    obtain ⟨⟨r, pools₁⟩, hd, h⟩ := h
    obtain ⟨marks, s', hl, hlowers, rfl⟩ := lowers_of_lowerWith (hu d List.mem_cons_self) hd
    obtain ⟨hext, hkeep⟩ := hlowers.extends named
    obtain ⟨hs', hext', new, hnew, hlen, hall⟩ :=
      of_lowerAll named (fun e he => hu e (List.mem_cons_of_mem _ he)) (hkeep hs) h
    refine ⟨hs', hext.trans hext', r :: new, by simpa using hnew, by simp [hlen], ?_⟩
    intro i e he
    cases i with
    | zero =>
      cases he
      exact ⟨pools, r, marks, s', rfl, hl, hlowers, hs, hext'⟩
    | succ i => exact hall he

end Definition

/-- What lowering definitions answers has the layout of these definitions. -/
theorem Program.lowers_of_ofDefinitions {registry : Registry} {limits : Limits}
    {ds : List Definition} {p : Program} (named : registry.Named)
    (hu : ∀ d ∈ ds, d.schema.body.Unbound) (h : ofDefinitions registry limits ds = .ok p) :
    ∃ schemas pools, Definition.signatures Table.empty ds = .ok schemas ∧
      p.Lowers ⟨registry, schemas⟩ ds pools ∧ p.limits = limits := by
  simp only [ofDefinitions, bind_eq_ok] at h
  obtain ⟨schemas, hschemas, h⟩ := h
  split at h
  · simp [refuse, bind, Except.bind] at h
  simp only [bind_eq_ok] at h
  obtain ⟨⟨routines, pools⟩, hall, h⟩ := h
  cases h
  have hentries := Definition.entries_of_signatures hschemas
  have hschema : ∀ {i : Nat} {name sig}, schemas.entries[i]? = some (name, sig) ↔
      ∃ d, ds[i]? = some d ∧ d.name = name ∧ d.signature = sig := by
    intro i name sig
    rw [hentries]
    simp
  have hnamed : Context.Named ⟨registry, schemas⟩ := by
    refine ⟨@named, ?_⟩
    intro name sig hsig
    obtain ⟨i, hi⟩ := Table.find?_eq_some_iff.1 hsig
    obtain ⟨d, _, rfl, rfl⟩ := hschema.1 hi
    rfl
  obtain ⟨hs, _, new, hnew, hlen, hrs⟩ :=
    Definition.of_lowerAll hnamed hu (Pools.sound_empty registry) hall
  have hnew : routines = new.toArray := by
    apply Array.ext'
    simpa using hnew
  subst hnew
  refine ⟨schemas, pools, hschemas, ⟨hnamed, hs, rfl, rfl, hschema, by simp [hlen], ?_⟩, rfl⟩
  intro i d hd
  obtain ⟨before, r, marks, s', hr, hd⟩ := hrs hd
  exact ⟨before, r, marks, s', by simpa using hr, hd⟩

/-! ### A schema that answers its argument -/

namespace Definition

def echo : Definition where
  name := "echo"
  schema := {
    name? := some "echo"
    params := [⟨"x", .number, ⟨12, 20⟩⟩]
    returns := .number
    body := .block ⟨32, 37⟩ [.read ⟨34, 35⟩ "x"]
    span := ⟨0, 37⟩ }

def echoRoutine : Routine where
  name := "echo"
  resource? := none
  params := [("x", .number)]
  returns := .number
  code := #[.loadLocal 0, .returnValue]
  localCount := 1
  localNames := #[some "x"]

theorem lower_echo (ctx : Context) : echo.lower ctx ⟨{}, Scope.empty⟩ =
    .ok (echoRoutine, ⟨{}, Scope.empty.add "x" .number⟩) := by
  have hfree : Scope.empty.find? "x" = none := by simp [Scope.find?, Scope.empty]
  have hdeclare : Scope.empty.declare? "x" .number =
      some (⟨.number, 0⟩, Scope.empty.add "x" .number) := by
    rw [Scope.declare?_eq_some_iff]
    exact .inr ⟨hfree, by decide, rfl, rfl⟩
  have hfind : (Scope.empty.add "x" .number).find? "x" = some ⟨.number, 0⟩ :=
    Scope.find?_add_self
  have hnames : (Scope.empty.add "x" .number).slotNames = #[some "x"] := by
    simp [Scope.slotNames, Scope.add, Scope.empty, Table.entries_insert_of_find?_none]
  simp [lower, declareParams, echo, lowerBody, Expr.lowerStatements, Expr.lower, bind, StateT.bind,
    Except.bind, Lower.pure_apply, pure_compiled, Lower.find?, hfree, Lower.declare, hdeclare, get,
    getThe, MonadStateOf.get, StateT.get, hfind, liftM, monadLift, MonadLift.monadLift, StateT.lift,
    conversion, dropValue, hnames, echoRoutine, StaticType.accepts, expectation, params]
  rfl

end Definition

def Program.echo : Program where
  routines := #[Definition.echoRoutine]

/-- What calls can be bound to when only this schema is compiled. -/
def Context.echo (registry : Registry) : Context where
  registry
  schemas := Table.empty.insert "echo" Definition.echo.signature

/-- What calls can be bound to when only one schema is compiled. -/
theorem Definition.signatures_singleton (d : Definition) :
    signatures Table.empty [d] = .ok (Table.empty.insert d.name d.signature) := by
  have hnew : (Table.empty : Table String Signature).contains d.name = false := by
    simp [Table.contains, Table.position?_eq_none_iff]
  simp [signatures, hnew]

/-- The program of a single schema. -/
theorem Program.ofDefinitions_singleton {registry : Registry} {d : Definition} {r : Routine}
    {s : Lowering} (limits : Limits)
    (h : d.lower ⟨registry, Table.empty.insert d.name d.signature⟩ { pools := {} } = .ok (r, s)) :
    ofDefinitions registry limits [d] = .ok {
      routines := #[r], limits
      constants := s.pools.literals.entries.map (·.1)
      hosts := s.pools.hosts.entries.map (·.2) } := by
  have hsize : ¬maxPosition < (Table.empty.insert d.name d.signature).size := by
    rw [Table.size, Table.entries_insert_of_find?_none Table.find?_empty, Array.size_push]
    exact Nat.not_lt.2 (Nat.succ_le_succ (Nat.zero_le _))
  have hlower : d.lowerWith ⟨registry, Table.empty.insert d.name d.signature⟩ {} =
      .ok (r, s.pools) :=
    mapError_eq_ok.2 (map_eq_ok.2 ⟨_, h, rfl⟩)
  simp [ofDefinitions, Definition.signatures_singleton, Definition.lowerAll, bind, Except.bind,
    pure_compiled, hsize, hlower]

theorem Definition.signatures_echo (registry : Registry) :
    signatures Table.empty [echo] = .ok (Context.echo registry).schemas :=
  signatures_singleton echo

theorem Program.ofDefinitions_echo (registry : Registry) :
    ofDefinitions registry {} [.echo] = .ok echo := by
  rw [ofDefinitions_singleton {} (Definition.lower_echo _)]
  simp [echo]

end EventScript
