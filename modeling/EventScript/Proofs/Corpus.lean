import EventScript.Proofs.Lists
import EventScript.Proofs.Submission

/-!
What a corpus is compiled to: a routine for each file, in the order of the files, each lowered from
the tree of its own text.
-/
namespace EventScript

theorem mapM_eq_ok {α β ε : Type} {f : α → Except ε β} {as : List α} {bs : List β} :
    as.mapM f = .ok bs ↔ List.Forall₂ (fun a b => f a = .ok b) as bs := by
  induction as generalizing bs with
  | nil => cases bs <;> simp [pure, Except.pure]
  | cons a as ih =>
    rw [List.mapM_cons]
    cases bs with
    | nil => simp [bind_eq_ok, pure, Except.pure]
    | cons b bs =>
      simp only [bind_eq_ok, ih, pure, Except.pure, Except.ok.injEq, List.cons.injEq,
        List.forall₂_cons]
      constructor
      · rintro ⟨_, hb, _, hbs, rfl, rfl⟩
        exact ⟨hb, hbs⟩
      · rintro ⟨hb, hbs⟩
        exact ⟨b, hb, bs, hbs, rfl, rfl⟩

/-- A file under the name of its resource. -/
structure SourceFile.Defines (file : SourceFile) (d : Definition) : Prop where
  name : d.name = file.id.methodName
  resource : d.resource? = some file.id
  schema : Schema.ofSource file.id.display file.text = .ok d.schema

theorem Submission.definitions_corpus_eq_ok {files : List SourceFile} {ds : List Definition} :
    (corpus files).definitions = .ok ds ↔ List.Forall₂ SourceFile.Defines files ds := by
  rw [definitions, mapM_eq_ok]
  refine iff_of_eq (congrArg (List.Forall₂ · files ds) ?_)
  funext file d
  simp only [bind_eq_ok, pure, Except.pure, Except.ok.injEq, eq_iff_iff]
  constructor
  · rintro ⟨schema, hs, rfl⟩
    exact ⟨rfl, rfl, hs⟩
  · rintro ⟨hname, hresource, hs⟩
    refine ⟨_, hs, ?_⟩
    rw [← hname, ← hresource]

namespace Definition

variable {ctx : Context} {pools pools' : Pools} {routines routines' : Array Routine}
  {ds : List Definition}

theorem lowerAll_append {es : List Definition} : lowerAll ctx pools routines (ds ++ es) =
    lowerAll ctx pools routines ds >>= fun r => lowerAll ctx r.2 r.1 es := by
  induction ds generalizing pools routines with
  | nil => rfl
  | cons d ds ih =>
    rw [List.cons_append, lowerAll, lowerAll]
    cases d.lowerWith ctx pools with
    | error e => rfl
    | ok r => exact ih

theorem exists_of_lowerAll (h : lowerAll ctx pools routines ds = .ok (routines', pools')) :
    ∃ more, routines' = routines ++ more ∧ more.size = ds.length := by
  induction ds generalizing pools routines with
  | nil =>
    cases h
    exact ⟨#[], by simp⟩
  | cons d ds ih =>
    obtain ⟨r, _, h⟩ := bind_eq_ok.1 h
    obtain ⟨more, rfl, hsize⟩ := ih h
    exact ⟨#[r.1] ++ more, by simp, by simp [hsize]; omega⟩

/-- What names a routine and what callers need to know of it are its definition's. -/
theorem of_lowerWith {d : Definition} {r : Routine} (h : d.lowerWith ctx pools = .ok (r, pools')) :
    r.name = d.name ∧ r.resource? = d.resource? ∧ r.params = d.params ∧
      r.returns = d.schema.returns := by
  obtain ⟨⟨r, s⟩, hl, heq⟩ := map_eq_ok.1 (mapError_eq_ok.1 h)
  cases heq
  simp only [StateT.run, lower, Lower.bind_eq_ok, Lower.pure_eq_ok] at hl
  obtain ⟨_, _, _, _, _, _, _, _, _, rfl, _⟩ := hl
  exact ⟨rfl, rfl, rfl, rfl⟩

/-- The routine of the definition at a position: what lowering it answers when all before it have
been lowered. -/
structure LowersAt (ctx : Context) (ds : List Definition) (i : Nat) (d : Definition) (r : Routine) :
    Prop where
  definition : ds[i]? = some d
  lowered : ∃ before pools pools', lowerAll ctx {} #[] (ds.take i) = .ok (before, pools) ∧
    d.lowerWith ctx pools = .ok (r, pools')

/-- Definitions and routines have the same positions. -/
theorem lowersAt_of_lowerAll (h : lowerAll ctx {} #[] ds = .ok (routines, pools)) {i : Nat}
    {d : Definition} (hd : ds[i]? = some d) :
    ∃ r, routines[i]? = some r ∧ LowersAt ctx ds i d r := by
  obtain ⟨hi, rfl⟩ := List.getElem?_eq_some_iff.1 hd
  have hsplit : ds = ds.take i ++ ds[i] :: ds.drop (i + 1) := by
    rw [List.getElem_cons_drop, List.take_append_drop]
  rw [hsplit, lowerAll_append] at h
  obtain ⟨⟨before, pools₁⟩, hbefore, h⟩ := bind_eq_ok.1 h
  obtain ⟨⟨r, pools₂⟩, hr, h⟩ := bind_eq_ok.1 h
  obtain ⟨_, rfl, hsize⟩ := exists_of_lowerAll hbefore
  obtain ⟨more, rfl, _⟩ := exists_of_lowerAll h
  refine ⟨r, ?_, hd, _, _, _, hbefore, hr⟩
  rw [List.length_take, Nat.min_eq_left (Nat.le_of_lt hi)] at hsize
  rw [Array.getElem?_append_left (by simp [hsize])]
  simp [← hsize]

end Definition

/-- A program has these files: their definitions, and routines in the same positions. -/
structure Program.OfFiles (registry : Registry) (files : List SourceFile) (ds : List Definition)
    (schemas : Table String Signature) (p : Program) : Prop where
  defined : List.Forall₂ SourceFile.Defines files ds
  signatures : Definition.signatures Table.empty ds = .ok schemas
  size : p.routines.size = ds.length
  routines : ∀ {i : Nat} {d : Definition}, ds[i]? = some d →
    ∃ r, p.routines[i]? = some r ∧ Definition.LowersAt ⟨registry, schemas⟩ ds i d r

namespace Program

variable {registry : Registry} {limits : Limits} {files : List SourceFile} {p : Program}

theorem exists_of_ofCorpus (h : ofCorpus registry limits files = .ok p) :
    ∃ ds schemas, p.OfFiles registry files ds schemas := by
  obtain ⟨ds, hds, h⟩ := bind_eq_ok.1 h
  obtain ⟨schemas, hschemas, h⟩ := bind_eq_ok.1 h
  split at h
  · cases h
  obtain ⟨⟨routines, pools⟩, hall, h⟩ := bind_eq_ok.1 h
  cases h
  obtain ⟨more, rfl, hsize⟩ := Definition.exists_of_lowerAll hall
  exact ⟨ds, schemas, Submission.definitions_corpus_eq_ok.1 hds, hschemas, by simpa using hsize,
    Definition.lowersAt_of_lowerAll hall⟩

/-- There are as many routines as files. -/
theorem size_of_ofCorpus (h : ofCorpus registry limits files = .ok p) :
    p.routines.size = files.length := by
  obtain ⟨ds, _, hfiles⟩ := exists_of_ofCorpus h
  rw [hfiles.size, hfiles.defined.length_eq]

end Program

end EventScript
