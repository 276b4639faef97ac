import EventScript.Callable
import EventScript.Operation.Standard
import EventScript.Proofs.Complaints.Reading
import EventScript.Proofs.Corpus

/-!
Names and resources of a corpus lead to the same routines, each that of its own file. Only the name
of the initializer is taken: a file of that name is found by its resource alone. A name that two
files have is complained about just if all files can be read.
-/
namespace EventScript

theorem mapM_eq_error {α β ε : Type} {f : α → Except ε β} {as : List α} {e : ε}
    (h : as.mapM f = .error e) : ∃ a ∈ as, f a = .error e := by
  induction as with
  | nil => cases h
  | cons a as ih =>
    rw [List.mapM_cons] at h
    rcases bind_eq_error.1 h with h | ⟨_, _, h⟩
    · exact ⟨a, by simp, h⟩
    · rcases bind_eq_error.1 h with h | ⟨_, _, h⟩
      · obtain ⟨b, hb, h⟩ := ih h
        exact ⟨b, by simp [hb], h⟩
      · cases h

/-! ### The table of signatures -/

namespace Definition

variable {known schemas : Table String Signature} {ds : List Definition}

theorem find?_insert_eq_none {name other : String} {sig : Signature} :
    (known.insert name sig).find? other = none ↔ other ≠ name ∧ known.find? other = none := by
  by_cases heq : other = name
  · subst heq
    simp
  · simp [Table.find?_insert_of_ne heq, heq]

/-- Signatures can be gathered just if all names are new and different. -/
theorem exists_signatures_iff : (∃ schemas, signatures known ds = .ok schemas) ↔
    (ds.map (·.name)).Nodup ∧ ∀ d ∈ ds, known.find? d.name = none := by
  induction ds generalizing known with
  | nil => simp [signatures]
  | cons d ds ih =>
    have hcontains : known.contains d.name = false ↔ known.find? d.name = none := by
      simp [Table.contains, Table.position?_eq_none_iff]
    rw [List.map_cons, List.nodup_cons, List.forall_mem_cons, ← hcontains]
    unfold signatures
    cases known.contains d.name with
    | true => simp [refuse, Except.mapError]
    | false =>
      simp only [Bool.false_eq_true, if_false, ih, find?_insert_eq_none, List.mem_map, not_exists,
        not_and]
      constructor
      · rintro ⟨hnodup, hnew⟩
        exact ⟨⟨fun e he => (hnew e he).1, hnodup⟩, trivial, fun e he => (hnew e he).2⟩
      · rintro ⟨⟨hne, hnodup⟩, -, hnew⟩
        exact ⟨hnodup, fun e he => ⟨hne e he, hnew e he⟩⟩

theorem exists_signatures_empty_iff : (∃ schemas, signatures Table.empty ds = .ok schemas) ↔
    (ds.map (·.name)).Nodup := by
  simp [exists_signatures_iff]

/-- The only complaint is of a name. -/
theorem kind_of_signatures {e : CompileError} (h : signatures known ds = .error e) :
    e.kind = .duplicateSchema := by
  induction ds generalizing known with
  | nil => cases h
  | cons d ds ih =>
    unfold signatures at h
    split at h
    · cases h
      rfl
    · exact ih h

end Definition

theorem SourceFile.names_eq {files : List SourceFile} {ds : List Definition}
    (h : List.Forall₂ Defines files ds) : files.map (·.id.methodName) = ds.map (·.name) := by
  rw [← List.forall₂_eq_eq_eq, List.forall₂_map_left_iff, List.forall₂_map_right_iff]
  exact h.imp fun _ _ hd => hd.name.symm

namespace Program

variable {registry : Registry} {limits : Limits} {files : List SourceFile} {p : Program}
  {ds : List Definition} {schemas : Table String Signature}

namespace OfFiles

variable (h : p.OfFiles registry files ds schemas)

include h

/-- All files have different names. -/
theorem nodup : (files.map (·.id.methodName)).Nodup := by
  rw [SourceFile.names_eq h.defined]
  exact Definition.exists_signatures_empty_iff.1 ⟨schemas, h.signatures⟩

theorem eq_of_name {i j : Nat} {file other : SourceFile} (hfile : files[i]? = some file)
    (hother : files[j]? = some other) (hname : file.id.methodName = other.id.methodName) :
    i = j := by
  have hi := (List.getElem?_eq_some_iff.1 hfile).1
  refine (List.getElem?_inj (by simpa using hi) h.nodup).1 ?_
  simp [hfile, hother, hname]

/-- The routine of a file is made of the file's own text. -/
theorem exists_routine {i : Nat} {file : SourceFile} (hfile : files[i]? = some file) :
    ∃ d r, file.Defines d ∧ p.routines[i]? = some r ∧
      Definition.LowersAt ⟨registry, schemas⟩ ds i d r := by
  obtain ⟨d, hd, hdefines⟩ := exists_getElem?_of_forall₂ h.defined hfile
  obtain ⟨r, hr, hlowers⟩ := h.routines hd
  exact ⟨d, r, hdefines, hr, hlowers⟩

/-- Every routine is of a file, whose name and resource it has. -/
theorem exists_file {i : Nat} {r : Routine} (hr : p.routines[i]? = some r) :
    ∃ file, files[i]? = some file ∧ r.name = file.id.methodName ∧ r.resource? = some file.id := by
  have hi := (Array.getElem?_eq_some_iff.1 hr).1
  rw [h.size, ← h.defined.length_eq] at hi
  have hfile := List.getElem?_eq_getElem hi
  obtain ⟨d, r', hdefines, hr', _, _, _, _, _, hlowered⟩ := h.exists_routine hfile
  obtain rfl : r' = r := Option.some.inj (hr'.symm.trans hr)
  obtain ⟨hname, hresource, _⟩ := Definition.of_lowerWith hlowered
  exact ⟨_, hfile, hname.trans hdefines.name, hresource.trans hdefines.resource⟩

theorem index?_eq {i : Nat} {file : SourceFile} (hfile : files[i]? = some file) :
    p.index? file.id.methodName = some i := by
  obtain ⟨_, r, _, hr, _⟩ := h.exists_routine hfile
  obtain ⟨hi, rfl⟩ := Array.getElem?_eq_some_iff.1 hr
  refine Array.findIdx?_eq_some_iff_getElem.2 ⟨hi, ?_, fun j hj => ?_⟩
  · obtain ⟨other, hother, hname, _⟩ := h.exists_file hr
    rw [hfile] at hother
    cases hother
    simpa using hname
  · have hlookup := Array.getElem?_eq_getElem (Nat.lt_trans hj hi)
    obtain ⟨other, hother, hname, _⟩ := h.exists_file hlookup
    rw [decide_eq_true_iff, hname]
    intro hsame
    exact (Nat.ne_of_lt hj) (h.eq_of_name hother hfile hsame)

/-- Equal resources have equal names, so there are no others to choose from. -/
theorem resourceIndex?_eq {i : Nat} {file : SourceFile} (hfile : files[i]? = some file) :
    p.resourceIndex? file.id = some i := by
  have hunique : ∀ j, (p.routines[j]?.bind (·.resource?)) = some file.id → j = i := by
    intro j hj
    obtain ⟨r, hr, hresource⟩ := Option.bind_eq_some_iff.1 hj
    obtain ⟨other, hother, _, hid⟩ := h.exists_file hr
    have hsame : other.id = file.id := Option.some.inj (hid.symm.trans hresource)
    exact h.eq_of_name hother hfile (congrArg _ hsame)
  obtain ⟨_, r, _, hr, _⟩ := h.exists_routine hfile
  obtain ⟨other, hother, _, hid⟩ := h.exists_file hr
  rw [hfile] at hother
  cases hother
  have hi := (Array.getElem?_eq_some_iff.1 hr).1
  unfold resourceIndex?
  cases hfind : (List.range p.routines.size).reverse.find? fun j =>
      (p.routines[j]?.bind (·.resource?)) = some file.id with
  | none =>
    have := List.find?_eq_none.1 hfind i (by simpa using hi)
    simp [hr, hid] at this
  | some j =>
    have hj := List.find?_some hfind
    rw [hunique j (by simpa using hj)]

theorem resourceCallable?_eq {i : Nat} {file : SourceFile} (hfile : files[i]? = some file) :
    p.resourceCallable? file.id = some ⟨p, .routine i⟩ := by
  rw [resourceCallable?, h.resourceIndex?_eq hfile]
  rfl

theorem callable?_eq {i : Nat} {file : SourceFile} (hfile : files[i]? = some file)
    (hname : file.id.methodName ≠ initializerName) :
    p.callable? file.id.methodName = some ⟨p, .routine i⟩ := by
  rw [callable?, if_neg hname, h.index?_eq hfile]
  rfl

end OfFiles

theorem callable?_initializerName : p.callable? initializerName = some ⟨p, .initializer⟩ :=
  if_pos rfl

/-- Lowering complains of no name. -/
theorem kind_of_ofDefinitions {schemas : Table String Signature} {e : CompileError}
    (hs : Definition.signatures Table.empty ds = .ok schemas)
    (h : ofDefinitions registry limits ds = .error e) : e.kind ≠ .duplicateSchema := by
  rw [ofDefinitions, hs] at h
  rcases bind_eq_error.1 h with h | ⟨_, ⟨⟩, h⟩
  · cases h
  split at h
  · cases h
    decide
  · rcases bind_eq_error.1 h with h | ⟨_, _, h⟩
    · obtain ⟨d, _, pools, hd⟩ := Definition.exists_of_lowerAll_error h
      obtain ⟨e, he, rfl⟩ := Definition.exists_of_lowerWith (S := fun _ => True)
        ⟨trivial, fun _ _ => trivial⟩ ⟨trivial, fun _ _ => trivial, fun _ _ => trivial⟩ hd
      exact he.kind
    · cases h

/-- A corpus is refused for a name just if its files can all be read and two have that name. -/
theorem exists_duplicate_iff : (∃ e, ofCorpus registry limits files = .error e ∧
      e.kind = .duplicateSchema) ↔
    (∀ file ∈ files, ∃ schema, Schema.ofSource file.id.display file.text = .ok schema) ∧
      ¬(files.map (·.id.methodName)).Nodup := by
  constructor
  · rintro ⟨e, he, hkind⟩
    rcases bind_eq_error.1 he with he | ⟨ds, hds, he⟩
    · obtain ⟨file, _, hfile⟩ := mapM_eq_error he
      rcases bind_eq_error.1 hfile with hfile | ⟨_, _, hfile⟩
      · exact absurd hkind (Schema.kind_of_ofSource hfile)
      · cases hfile
    · have hfiles := Submission.definitions_corpus_eq_ok.1 hds
      constructor
      · intro file hfile
        obtain ⟨d, _, hd⟩ := exists_right_of_forall₂ hfiles hfile
        exact ⟨_, hd.schema⟩
      · intro hnodup
        rw [SourceFile.names_eq hfiles] at hnodup
        obtain ⟨schemas, hs⟩ := Definition.exists_signatures_empty_iff.2 hnodup
        exact kind_of_ofDefinitions hs he hkind
  · rintro ⟨hparse, hdup⟩
    obtain ⟨ds, hfiles⟩ : ∃ ds, List.Forall₂ SourceFile.Defines files ds := by
      refine exists_forall₂ fun file hfile => ?_
      obtain ⟨schema, hschema⟩ := hparse file hfile
      exact ⟨⟨file.id.methodName, some file.id, schema⟩, rfl, rfl, hschema⟩
    cases hs : Definition.signatures Table.empty ds with
    | ok schemas =>
      rw [SourceFile.names_eq hfiles] at hdup
      exact absurd (Definition.exists_signatures_empty_iff.1 ⟨schemas, hs⟩) hdup
    | error e =>
      refine ⟨e, bind_eq_error.2 (.inr ⟨ds, ?_, ?_⟩), Definition.kind_of_signatures hs⟩
      · exact Submission.definitions_corpus_eq_ok.2 hfiles
      · exact bind_eq_error.2 (.inl hs)

/-- Lookups agree: every file has a routine that is made of its own text, which its name and its
resource both lead to. Only the name of the initializer leads elsewhere. -/
structure Indexes (registry : Registry) (files : List SourceFile) (p : Program) : Prop where
  size : p.routines.size = files.length
  distinct : (files.map (·.id.methodName)).Nodup
  own : ∃ ds schemas, p.OfFiles registry files ds schemas
  header : ∀ {i : Nat} {file : SourceFile} {schema : Schema}, files[i]? = some file →
    Schema.ofSource file.id.display file.text = .ok schema → ∃ r, p.routines[i]? = some r ∧
      r.name = file.id.methodName ∧ r.resource? = some file.id ∧
      r.params = schema.params.map (fun p => (p.name, p.type)) ∧ r.returns = schema.returns
  byResource : ∀ {i : Nat} {file : SourceFile}, files[i]? = some file →
    p.resourceCallable? file.id = some ⟨p, .routine i⟩
  byName : ∀ {i : Nat} {file : SourceFile}, files[i]? = some file →
    p.callable? file.id.methodName =
      some ⟨p, if file.id.methodName = initializerName then .initializer else .routine i⟩

theorem OfFiles.indexes (h : p.OfFiles registry files ds schemas) : p.Indexes registry files where
  size := by rw [h.size, h.defined.length_eq]
  distinct := h.nodup
  own := ⟨ds, schemas, h⟩
  header hfile hschema := by
    obtain ⟨d, r, hdefines, hr, _, _, _, _, _, hlowered⟩ := h.exists_routine hfile
    obtain ⟨hname, hresource, hparams, hreturns⟩ := Definition.of_lowerWith hlowered
    obtain rfl := Except.ok.inj (hdefines.schema.symm.trans hschema)
    exact ⟨r, hr, hname.trans hdefines.name, hresource.trans hdefines.resource, hparams, hreturns⟩
  byResource := h.resourceCallable?_eq
  byName {i file} hfile := by
    split
    · rename_i hname
      exact if_pos hname
    · rename_i hname
      exact h.callable?_eq hfile hname

/-- What a corpus is compiled to can be looked up by name and by resource alike, and a corpus is
refused for a name just if its files can all be read and two have that name. -/
theorem ofCorpus_lookups (registry : Registry) (limits : Limits) (files : List SourceFile) :
    (∀ p, ofCorpus registry limits files = .ok p → p.Indexes registry files) ∧
      ((∃ e, ofCorpus registry limits files = .error e ∧ e.kind = .duplicateSchema) ↔
        (∀ file ∈ files, ∃ schema, Schema.ofSource file.id.display file.text = .ok schema) ∧
          ¬(files.map (·.id.methodName)).Nodup) := by
  refine ⟨fun p hp => ?_, exists_duplicate_iff⟩
  obtain ⟨ds, schemas, h⟩ := exists_of_ofCorpus hp
  exact h.indexes

end Program

/-! ### A file of the initializer's name -/

namespace SourceFile

def hidden : SourceFile := ⟨⟨"demo", "$static_init"⟩, "schema() -> string \x7b 'hi' \x7d"⟩

def hiddenDefinition : Definition where
  name := "$static_init"
  resource? := some hidden.id
  schema := {
    name? := none
    params := []
    returns := .string
    body := .block ⟨19, 27⟩ [.string ⟨21, 25⟩ "hi"]
    span := ⟨0, 27⟩ }

theorem definitions_hidden : (Submission.corpus [hidden]).definitions = .ok [hiddenDefinition] := by
  cbv

theorem exists_lower_hidden (ctx : Context) :
    ∃ r, hiddenDefinition.lower ctx ⟨{}, Scope.empty⟩ = .ok r := by
  have hnone : (Table.empty : Table Literal Unit).position? (.string "hi") = none := by
    simp [Table.position?_eq_none_iff]
  have hsize : (Table.empty : Table Literal Unit).size ≤ maxPosition := by simp [Table.size]
  simp [Definition.lower, Definition.declareParams, hiddenDefinition, Definition.lowerBody,
    Expr.lowerStatements, Expr.lower, bind, StateT.bind, Except.bind, Lower.pure_apply,
    pure_compiled, Lower.pushLiteral, Lower.literal, Pools.literal, hnone, Except.map, get, getThe,
    MonadStateOf.get, StateT.get, liftM, monadLift, MonadLift.monadLift, StateT.lift,
    Definition.conversion, dropValue, StaticType.accepts, expectation, hsize]

theorem exists_ofCorpus_hidden (registry : Registry) :
    ∃ p, Program.ofCorpus registry {} [hidden] = .ok p := by
  obtain ⟨schemas, hs⟩ : ∃ schemas, Definition.signatures Table.empty [hiddenDefinition] =
      .ok schemas := Definition.exists_signatures_empty_iff.2 (by simp)
  have hsize : ¬maxPosition < schemas.size := by
    rw [Table.size, Definition.entries_of_signatures hs]
    simp [maxPosition]
  obtain ⟨⟨r, s⟩, hlower⟩ := exists_lower_hidden ⟨registry, schemas⟩
  have hlowerWith : hiddenDefinition.lowerWith ⟨registry, schemas⟩ {} = .ok (r, s.pools) :=
    mapError_eq_ok.2 (map_eq_ok.2 ⟨_, hlower, rfl⟩)
  obtain ⟨p, hp⟩ : ∃ p, Program.ofDefinitions registry {} [hiddenDefinition] = .ok p := by
    simp [Program.ofDefinitions, hs, Definition.lowerAll, bind, Except.bind, pure_compiled, hsize,
      hlowerWith]
  exact ⟨p, bind_eq_ok.2 ⟨_, definitions_hidden, hp⟩⟩

/-- The name of a file leads to the initializer if it is its name, and not where the resource of
the file does. -/
theorem hidden_lookups : ∃ p, Program.ofCorpus .standard {} [hidden] = .ok p ∧
    p.callable? hidden.id.methodName = some ⟨p, .initializer⟩ ∧
      p.resourceCallable? hidden.id = some ⟨p, .routine 0⟩ := by
  obtain ⟨p, hp⟩ := exists_ofCorpus_hidden .standard
  obtain ⟨ds, schemas, h⟩ := Program.exists_of_ofCorpus hp
  refine ⟨p, hp, ?_, h.resourceCallable?_eq rfl⟩
  have hname : hidden.id.methodName = initializerName := by cbv
  rw [hname]
  exact Program.callable?_initializerName

end SourceFile

end EventScript
