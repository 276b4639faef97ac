import EventScript.Proofs.CorpusNames
import EventScript.Proofs.Positions.Lockstep
import EventScript.Proofs.Positions.Rearranged
import EventScript.Proofs.Registry

/-!
The order of the files of a corpus. It decides which positions literals, callbacks and schemas get,
and which of several complaints comes first, but neither whether the corpus is accepted nor what any
call does.
-/
namespace EventScript

/-- Entry points that no call can tell apart. -/
structure Callable.Alike (c c' : Callable) : Prop where
  name : c.name = c'.name
  params : c.params = c'.params
  invoke : ∀ fuel args world, c.invoke fuel args world = c'.invoke fuel args world
  initializes : ∀ args, c.initializes args = c'.initializes args

/-- Programs in which every name and every resource lead to the same, positions aside. -/
structure Program.Rearranges (p p' : Program) : Prop where
  limits : p.limits = p'.limits
  routine : ∀ name, Option.Rel (Routine.Alike p p') ((p.index? name).bind (p.routines[·]?))
    ((p'.index? name).bind (p'.routines[·]?))
  byName : ∀ name, Option.Rel Callable.Alike (p.callable? name) (p'.callable? name)
  byResource : ∀ id, Option.Rel Callable.Alike (p.resourceCallable? id) (p'.resourceCallable? id)

/-! ### Definitions -/

namespace Program

variable {registry : Registry} {limits : Limits} {ctx ctx' : Context} {pools pools' : Pools}
  {p p' : Program} {ds ds' : List Definition}

/-- Positions lead to what they were given out for. -/
structure Holds (ctx : Context) (pools : Pools) (p : Program) : Prop where
  constants : p.constants = pools.literals.entries.map (·.1)
  hosts : p.hosts = pools.hosts.entries.map (·.2)
  schemas : ∀ {name : String} {i : Nat}, ctx.schemas.position? name = some i →
    ∃ r, p.routines[i]? = some r ∧ r.name = name

theorem Lowers.name_eq (h : p.Lowers ctx ds pools) {i : Nat} {d : Definition} {r : Routine}
    (hd : ds[i]? = some d) (hr : p.routines[i]? = some r) : r.name = d.name := by
  obtain ⟨_, r', _, _, hr', _, ⟨_, _, _, _⟩, _⟩ := h.routines hd
  cases hr.symm.trans hr'
  rfl

theorem Lowers.exists_definition (h : p.Lowers ctx ds pools) {i : Nat} {r : Routine}
    (hr : p.routines[i]? = some r) : ∃ d, ds[i]? = some d := by
  have hi := (Array.getElem?_eq_some_iff.1 hr).1
  rw [h.size] at hi
  exact ⟨_, List.getElem?_eq_getElem hi⟩

theorem Lowers.schemas_of_position? (h : p.Lowers ctx ds pools) {name : String} {i : Nat}
    (hi : ctx.schemas.position? name = some i) : ∃ r, p.routines[i]? = some r ∧ r.name = name := by
  obtain ⟨sig, hsig⟩ := Table.position?_eq_some_iff.1 hi
  obtain ⟨d, hd, rfl, -⟩ := h.schemas.1 hsig
  obtain ⟨_, r, _, _, hr, _⟩ := h.routines hd
  exact ⟨r, hr, h.name_eq hd hr⟩

theorem Lowers.holds (h : p.Lowers ctx ds pools) : p.Holds ctx pools :=
  ⟨h.constants, h.hosts, h.schemas_of_position?⟩

theorem Holds.alike (h : p.Holds ctx pools) (h' : p'.Holds ctx' pools') {i i' : Instruction}
    (hi : i.Mirrors ctx ctx' pools pools' i') : i.Alike p p' i' := by
  cases hi with
  | constant left right =>
    have left := congrArg (Option.map (·.1)) left
    have right := congrArg (Option.map (·.1)) right
    rw [← Array.getElem?_map] at left right
    exact .constant (h.constants ▸ left) (h'.constants ▸ right)
  | host left right =>
    have left := congrArg (Option.map (·.2)) left
    have right := congrArg (Option.map (·.2)) right
    rw [← Array.getElem?_map] at left right
    exact .host (h.hosts ▸ left) (h'.hosts ▸ right)
  | schema left right =>
    obtain ⟨r, hr, rfl⟩ := h.schemas left
    obtain ⟨r', hr', hname⟩ := h'.schemas right
    exact .schema hr hr' hname.symm
  | plain plain => exact .plain plain

theorem Holds.routine_alike (h : p.Holds ctx pools) (h' : p'.Holds ctx' pools') {r r' : Routine}
    (hr : r.Mirrors ctx ctx' pools pools' r') : r.Alike p p' r' :=
  { hr with listing := exists_listing_iff.2 (hr.code.imp fun _ _ => h.alike h') }

/-- What is compiled: no more schemas than there are positions, all with names of their own. -/
theorem ofDefinitions_eq_ok : ofDefinitions registry limits ds = .ok p ↔
    ∃ schemas routines pools, Definition.signatures Table.empty ds = .ok schemas ∧
      ds.length ≤ maxPosition ∧
        Definition.lowerAll ⟨registry, schemas⟩ {} #[] ds = .ok (routines, pools) ∧
          p = ⟨routines, pools.literals.entries.map (·.1), pools.hosts.entries.map (·.2),
            limits⟩ := by
  have hsize {schemas} (hs : Definition.signatures Table.empty ds = .ok schemas) :
      schemas.size = ds.length := by
    simp [Table.size, Definition.entries_of_signatures hs]
  constructor
  · intro h
    obtain ⟨schemas, hs, h⟩ := bind_eq_ok.1 h
    split at h
    · cases h
    rename_i hlength
    obtain ⟨⟨routines, pools⟩, hall, h⟩ := bind_eq_ok.1 h
    cases h
    exact ⟨schemas, routines, pools, hs, hsize hs ▸ Nat.le_of_not_gt hlength, hall, rfl⟩
  · rintro ⟨schemas, routines, pools, hs, hlength, hall, rfl⟩
    simp [ofDefinitions, hs, bind, Except.bind, hsize hs, Nat.not_lt.2 hlength, hall, pure_compiled]

/-- Positions of what a program holds can be written in its code. -/
theorem sizes_of_ofDefinitions (named : registry.Named) (hu : ∀ d ∈ ds, d.schema.body.Unbound)
    (h : ofDefinitions registry limits ds = .ok p) :
    p.constants.size ≤ maxPosition + 1 ∧ p.hosts.size ≤ maxPosition + 1 := by
  obtain ⟨schemas', _, hs', hp, _⟩ := lowers_of_ofDefinitions named hu h
  obtain ⟨schemas, routines, pools, hs, _, hall, rfl⟩ := ofDefinitions_eq_ok.1 h
  obtain rfl : schemas = schemas' := Except.ok.inj (hs.symm.trans hs')
  have hfits := Definition.fits_of_lowerAll hp.named hu (Pools.sound_empty _) Pools.fits_empty hall
  exact ⟨by simpa [Table.size] using hfits.literals, by simpa [Table.size] using hfits.hosts⟩

theorem Lowers.fits (h : p.Lowers ctx ds pools) (hconstants : p.constants.size ≤ maxPosition + 1)
    (hhosts : p.hosts.size ≤ maxPosition + 1) : pools.Fits where
  literals := by simpa only [h.constants, Array.size_map, Table.size] using hconstants
  hosts := by simpa only [h.hosts, Array.size_map, Table.size] using hhosts

/-- Names tell definitions apart. -/
theorem position_eq_of_name (hnodup : (ds.map (·.name)).Nodup) {i j : Nat} {d e : Definition}
    (hi : ds[i]? = some d) (hj : ds[j]? = some e) (hname : d.name = e.name) : i = j := by
  refine (List.getElem?_inj ?_ hnodup).1 ?_
  · simpa using (List.getElem?_eq_some_iff.1 hi).1
  · simp only [List.getElem?_map, hi, hj, Option.map_some, hname]

/-- In another order the definitions are accepted too, and come to the same. -/
theorem exists_ofDefinitions_of_perm (named : registry.Named)
    (hu : ∀ d ∈ ds, d.schema.body.Unbound) (hperm : ds.Perm ds')
    (h : ofDefinitions registry limits ds = .ok p) :
    ∃ p', ofDefinitions registry limits ds' = .ok p' ∧ p.Alike p' := by
  obtain ⟨schemas, pools, hs, hp, hlimits⟩ := lowers_of_ofDefinitions named hu h
  obtain ⟨hconstants, hhosts⟩ := sizes_of_ofDefinitions named hu h
  obtain ⟨_, _, _, _, hlength, _⟩ := ofDefinitions_eq_ok.1 h
  have hnodup := Definition.exists_signatures_empty_iff.1 ⟨schemas, hs⟩
  have hnodup' := (hperm.map (·.name)).nodup_iff.1 hnodup
  obtain ⟨schemas', hs'⟩ := Definition.exists_signatures_empty_iff.2 hnodup'
  obtain ⟨routines, pools', hall, -, hnew⟩ := Definition.follows_lowerAll hp
    (hp.fits hconstants hhosts) (Definition.rearranges_of_perm hp.named hs hs' hperm) hu
    (fun d => hperm.mem_iff.2) (Pools.sound_empty registry)
    ⟨by simp [Table.Has], by simp [Table.Has]⟩ #[]
  have hp' := (ofDefinitions_eq_ok (p := ⟨_, _, _, limits⟩)).2
    ⟨schemas', _, pools', hs', hperm.length_eq ▸ hlength, hall, rfl⟩
  obtain ⟨schemas₂, _, hs₂, hlowers', -⟩ :=
    lowers_of_ofDefinitions named (fun d hd => hu d (hperm.mem_iff.2 hd)) hp'
  obtain rfl : schemas' = schemas₂ := Except.ok.inj (hs'.symm.trans hs₂)
  refine ⟨_, hp', hlimits, fun {i j r r'} hr hr' hname => ?_⟩
  -- routines of one name are of one definition, which was lowered in both orders
  obtain ⟨d, hd⟩ := hp.exists_definition hr
  obtain ⟨d', hd'⟩ := hlowers'.exists_definition hr'
  obtain ⟨_, hfound, i₁, r₁, hd₁, hr₁, hmirrors⟩ := exists_getElem?_of_forall₂ hnew hd'
  have hsame : d'.name = d.name := by
    rw [← hlowers'.name_eq hd' hr', ← hname, hp.name_eq hd hr]
  obtain rfl := position_eq_of_name hnodup hd₁ hd hsame
  cases hr₁.symm.trans hr
  simp only [Array.empty_append, List.getElem?_toArray, hfound] at hr'
  cases hr'
  exact hp.holds.routine_alike ⟨rfl, rfl, hlowers'.schemas_of_position?⟩ hmirrors

variable {files files' : List SourceFile}

theorem exists_ofCorpus_of_perm (named : registry.Named) (hperm : files.Perm files')
    (h : ofCorpus registry limits files = .ok p) :
    ∃ p', ofCorpus registry limits files' = .ok p' ∧ p.Alike p' := by
  obtain ⟨ds, hds, h⟩ := bind_eq_ok.1 h
  have hsource : ∀ d ∈ ds, d.schema.IsSource :=
    Submission.isSource_of_definitions
      (show (Submission.corpus files).definitions = .ok ds from hds)
  have hu : ∀ d ∈ ds, d.schema.body.Unbound := fun d hd => (hsource d hd).body.unbound
  obtain ⟨ds', hds', hperm'⟩ := List.perm_comp_forall₂ hperm.symm
    (Submission.definitions_corpus_eq_ok.1 hds)
  obtain ⟨p', hp', halike⟩ := exists_ofDefinitions_of_perm named hu hperm'.symm h
  exact ⟨p', bind_eq_ok.2 ⟨ds', Submission.definitions_corpus_eq_ok.2 hds', hp'⟩, halike⟩

/-- Positions of routines of one name. -/
def Corresponds (p p' : Program) (i j : Nat) : Prop := ∃ r r', p.routines[i]? = some r ∧
  p'.routines[j]? = some r' ∧ r.name = r'.name

namespace OfFiles

variable {schemas schemas' : Table String Signature} (h : p.OfFiles registry files ds schemas)
  (h' : p'.OfFiles registry files' ds' schemas')

include h

theorem index?_eq_some_iff {name : String} {i : Nat} : p.index? name = some i ↔
    ∃ file, files[i]? = some file ∧ file.id.methodName = name := by
  constructor
  · intro hi
    obtain ⟨hlt, hname, _⟩ := Array.findIdx?_eq_some_iff_getElem.1 hi
    obtain ⟨file, hfile, hr, _⟩ := h.exists_file (Array.getElem?_eq_getElem hlt)
    exact ⟨file, hfile, hr ▸ of_decide_eq_true hname⟩
  · rintro ⟨file, hfile, rfl⟩
    exact h.index?_eq hfile

theorem resourceIndex?_eq_some_iff {id : ResourceId} {i : Nat} : p.resourceIndex? id = some i ↔
    ∃ file, files[i]? = some file ∧ file.id = id := by
  constructor
  · intro hi
    have hid := List.find?_some (show List.find? _ _ = some i from hi)
    obtain ⟨r, hr, hid⟩ := Option.bind_eq_some_iff.1 (of_decide_eq_true hid)
    obtain ⟨file, hfile, _, hresource⟩ := h.exists_file hr
    exact ⟨file, hfile, Option.some.inj (hresource.symm.trans hid)⟩
  · rintro ⟨file, hfile, rfl⟩
    exact h.resourceIndex?_eq hfile

include h'

/-- What leads to a file leads to the file's routine in both programs. -/
theorem rel_of_perm (hperm : files.Perm files') {found found' : Option Nat} {P : SourceFile → Prop}
    (hfound : ∀ i, found = some i ↔ ∃ file, files[i]? = some file ∧ P file)
    (hfound' : ∀ i, found' = some i ↔ ∃ file, files'[i]? = some file ∧ P file) :
    Option.Rel (Corresponds p p') found found' := by
  cases found with
  | none =>
    cases found' with
    | none => exact .none
    | some j =>
      obtain ⟨file, hfile, hP⟩ := (hfound' j).1 rfl
      obtain ⟨i, hi⟩ := List.getElem?_of_mem (hperm.mem_iff.2 (List.mem_of_getElem? hfile))
      exact absurd ((hfound i).2 ⟨file, hi, hP⟩) nofun
  | some i =>
    obtain ⟨file, hfile, hP⟩ := (hfound i).1 rfl
    obtain ⟨j, hj⟩ := List.getElem?_of_mem (hperm.mem_iff.1 (List.mem_of_getElem? hfile))
    rw [(hfound' j).2 ⟨file, hj, hP⟩]
    obtain ⟨_, r, _, hr, _⟩ := h.exists_routine hfile
    obtain ⟨_, r', _, hr', _⟩ := h'.exists_routine hj
    obtain ⟨other, hother, hrname, _⟩ := h.exists_file hr
    obtain ⟨other', hother', hrname', _⟩ := h'.exists_file hr'
    cases hfile.symm.trans hother
    cases hj.symm.trans hother'
    exact .some ⟨r, r', hr, hr', hrname.trans hrname'.symm⟩

theorem rel_index? (hperm : files.Perm files') (name : String) :
    Option.Rel (Corresponds p p') (p.index? name) (p'.index? name) :=
  h.rel_of_perm h' hperm (fun _ => h.index?_eq_some_iff) fun _ => h'.index?_eq_some_iff

theorem rel_resourceIndex? (hperm : files.Perm files') (id : ResourceId) :
    Option.Rel (Corresponds p p') (p.resourceIndex? id) (p'.resourceIndex? id) :=
  h.rel_of_perm h' hperm (fun _ => h.resourceIndex?_eq_some_iff)
    fun _ => h'.resourceIndex?_eq_some_iff

end OfFiles

/-- Entry points at positions of one name. -/
theorem Alike.callable (h : p.Alike p') {i j : Nat} (hij : Corresponds p p' i j) :
    Callable.Alike ⟨p, .routine i⟩ ⟨p', .routine j⟩ := by
  obtain ⟨r, r', hr, hr', hname⟩ := hij
  have halike := h.routine hr hr' hname
  refine ⟨?_, ?_, invoke_eq h hr hr' hname, fun args => ?_⟩
  · simp only [Callable.name, Callable.routine?, hr, hr', Option.map_some, hname]
  · simp only [Callable.params, Callable.routine?, hr, hr', Option.map_some, halike.params]
  · simp only [Callable.initializes, hr, hr', halike.checkArguments_eq, initializedBy, enter,
      h.limits]
    split <;> rfl

theorem rearranges_of_alike {schemas schemas' : Table String Signature}
    (h : p.OfFiles registry files ds schemas) (h' : p'.OfFiles registry files' ds' schemas')
    (hperm : files.Perm files') (halike : p.Alike p') : p.Rearranges p' where
  limits := halike.limits
  routine name := by
    have hrel := h.rel_index? h' hperm name
    generalize p.index? name = found, p'.index? name = found' at hrel
    cases hrel with
    | none => exact .none
    | some hij =>
      obtain ⟨r, r', hr, hr', hname⟩ := hij
      simp only [Option.bind_some, hr, hr']
      exact .some (halike.routine hr hr' hname)
  byName name := by
    simp only [callable?]
    split
    · exact .some ⟨rfl, rfl, fun _ _ _ => rfl, fun _ => rfl⟩
    · have hrel := h.rel_index? h' hperm name
      generalize p.index? name = found, p'.index? name = found' at hrel
      cases hrel with
      | none => exact .none
      | some hij => exact .some (halike.callable hij)
  byResource id := by
    have hrel := h.rel_resourceIndex? h' hperm id
    simp only [resourceCallable?]
    generalize p.resourceIndex? id = found, p'.resourceIndex? id = found' at hrel
    cases hrel with
    | none => exact .none
    | some hij => exact .some (halike.callable hij)

/-- Files in another order are accepted just if they are in this one, and come to the same
program, positions aside. -/
theorem ofCorpus_perm (registry : Registry) (named : registry.Named) (limits : Limits)
    (files files' : List SourceFile) (hperm : files.Perm files') :
    ((∃ p, ofCorpus registry limits files = .ok p) ↔
      ∃ p', ofCorpus registry limits files' = .ok p') ∧
        ∀ p p', ofCorpus registry limits files = .ok p → ofCorpus registry limits files' = .ok p' →
          p.Rearranges p' := by
  refine ⟨⟨?_, ?_⟩, ?_⟩
  · rintro ⟨p, hp⟩
    obtain ⟨p', hp', _⟩ := exists_ofCorpus_of_perm named hperm hp
    exact ⟨p', hp'⟩
  · rintro ⟨p', hp'⟩
    obtain ⟨p, hp, _⟩ := exists_ofCorpus_of_perm named hperm.symm hp'
    exact ⟨p, hp⟩
  · intro p p' hp hp'
    obtain ⟨p₁, hp₁, halike⟩ := exists_ofCorpus_of_perm named hperm hp
    obtain rfl : p₁ = p' := Except.ok.inj (hp₁.symm.trans hp')
    obtain ⟨_, _, hfiles⟩ := exists_of_ofCorpus hp
    obtain ⟨_, _, hfiles'⟩ := exists_of_ofCorpus hp'
    exact rearranges_of_alike hfiles hfiles' hperm halike

end Program

/-! ### A call of a later file -/

namespace SourceFile

def greet : SourceFile := ⟨⟨"demo", "greet"⟩, "schema() -> string \x7b 'hi' \x7d"⟩

def welcome : SourceFile := ⟨⟨"demo", "welcome"⟩, "schema() -> string \x7b greet() \x7d"⟩

def greetDefinition : Definition where
  name := "greet"
  resource? := some greet.id
  schema := {
    name? := none
    params := []
    returns := .string
    body := .block ⟨19, 27⟩ [.string ⟨21, 25⟩ "hi"]
    span := ⟨0, 27⟩ }

def welcomeDefinition : Definition where
  name := "welcome"
  resource? := some welcome.id
  schema := {
    name? := none
    params := []
    returns := .string
    body := .block ⟨19, 30⟩ [.call ⟨21, 28⟩ "greet" [] none]
    span := ⟨0, 30⟩ }

theorem definitions_welcome : (Submission.corpus [welcome, greet]).definitions =
    .ok [welcomeDefinition, greetDefinition] := by
  cbv

theorem exists_lower_greet (ctx : Context) :
    ∃ r, greetDefinition.lower ctx ⟨{}, Scope.empty⟩ = .ok r := by
  have hnone : (Table.empty : Table Literal Unit).position? (.string "hi") = none := by
    simp [Table.position?_eq_none_iff]
  have hsize : (Table.empty : Table Literal Unit).size ≤ maxPosition := by simp [Table.size]
  simp [Definition.lower, Definition.declareParams, greetDefinition, Definition.lowerBody,
    Expr.lowerStatements, Expr.lower, bind, StateT.bind, Except.bind, Lower.pure_apply,
    pure_compiled, Lower.pushLiteral, Lower.literal, Pools.literal, hnone, Except.map, get, getThe,
    MonadStateOf.get, StateT.get, liftM, monadLift, MonadLift.monadLift, StateT.lift,
    Definition.conversion, dropValue, StaticType.accepts, expectation, hsize]

theorem exists_lower_welcome {schemas : Table String Signature}
    (h : schemas.find? "greet" = some greetDefinition.signature) : ∃ r s,
      welcomeDefinition.lower ⟨.empty, schemas⟩ ⟨{}, Scope.empty⟩ = .ok (r, s) ∧ s.pools = {} := by
  obtain ⟨i, hi⟩ := Table.position?_of_has ⟨_, h⟩
  have hmangle : mangle "greet" = "greet" := by cbv
  have hcallee span : Context.callee ⟨.empty, schemas⟩ "greet" "greet" span =
      .ok (.ofSignature greetDefinition.signature) := by
    simp [Context.callee, Context.callee?, hmangle, h, Registry.empty]
  simp [Definition.lower, Definition.declareParams, welcomeDefinition, Definition.lowerBody,
    Expr.lowerStatements, Expr.lower, Expr.lowerArguments, Expr.targetOf, Expr.bindCall, hcallee,
    Callee.ofSignature, Callee.checkCount, greetDefinition, Definition.signature, Definition.params,
    Target.lower, hi, Target.params, Target.returns, bind, StateT.bind, Except.bind,
    Lower.pure_apply, pure_compiled, get, getThe, MonadStateOf.get, StateT.get, liftM, monadLift,
    MonadLift.monadLift, StateT.lift, Definition.conversion, dropValue, StaticType.accepts,
    expectation]

theorem exists_ofCorpus_welcome : ∃ p, Program.ofCorpus .empty {} [welcome, greet] = .ok p := by
  obtain ⟨schemas, hs⟩ : ∃ schemas, Definition.signatures Table.empty
      [welcomeDefinition, greetDefinition] = .ok schemas :=
    Definition.exists_signatures_empty_iff.2 (by decide)
  have hgreet := (Definition.mem_signatures_iff hs).2 ⟨greetDefinition, by simp, rfl, rfl⟩
  obtain ⟨r, s, hlower, hpools⟩ := exists_lower_welcome hgreet
  obtain ⟨⟨r', s'⟩, hlower'⟩ := exists_lower_greet ⟨.empty, schemas⟩
  have hfirst : welcomeDefinition.lowerWith ⟨.empty, schemas⟩ {} = .ok (r, {}) :=
    mapError_eq_ok.2 (map_eq_ok.2 ⟨_, hlower, by rw [← hpools]⟩)
  have hsecond : greetDefinition.lowerWith ⟨.empty, schemas⟩ {} = .ok (r', s'.pools) :=
    mapError_eq_ok.2 (map_eq_ok.2 ⟨_, hlower', rfl⟩)
  have hall : Definition.lowerAll ⟨.empty, schemas⟩ {} #[] [welcomeDefinition, greetDefinition] =
      .ok (#[r, r'], s'.pools) := by
    simp [Definition.lowerAll, hfirst, hsecond, bind, Except.bind]
  exact ⟨_, bind_eq_ok.2 ⟨_, definitions_welcome,
    Program.ofDefinitions_eq_ok.2 ⟨schemas, _, _, hs, by decide, hall, rfl⟩⟩⟩

/-- The file that is called can come first. -/
theorem greet_first : Registry.empty.Named ∧ [welcome, greet].Perm [greet, welcome] ∧
    ∃ p p', Program.ofCorpus .empty {} [welcome, greet] = .ok p ∧
      Program.ofCorpus .empty {} [greet, welcome] = .ok p' ∧ p.Rearranges p' := by
  have named : Registry.empty.Named := (Registry.all_empty (P := fun _ => True)).named
  have hperm : [welcome, greet].Perm [greet, welcome] := .swap _ _ _
  obtain ⟨haccepted, hsame⟩ := Program.ofCorpus_perm .empty named {} _ _ hperm
  obtain ⟨p, hp⟩ := exists_ofCorpus_welcome
  obtain ⟨p', hp'⟩ := haccepted.1 ⟨p, hp⟩
  exact ⟨named, hperm, p, p', hp, hp', hsame p p' hp hp'⟩

end SourceFile

end EventScript
