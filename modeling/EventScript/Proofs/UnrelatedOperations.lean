import EventScript.Operation.Standard
import EventScript.Proofs.Agreement
import EventScript.Proofs.Corpus

/-!
An operation that no call of a corpus asks for has no part in what the corpus is compiled to. The
two registries agree on all names that are looked up, so each step of compilation answers the same,
errors included.
-/
namespace EventScript

section

variable {ctx ctx' : Context}

theorem Target.lower_eq_of_schemas (hschemas : ctx.schemas = ctx'.schemas) (span : Span)
    (argc : Nat) (target : Target) : target.lower ctx span argc = target.lower ctx' span argc := by
  cases target with
  | operation op => rfl
  | schema name params returns => simp only [lower, hschemas]

namespace Expr

mutual

theorem lower_eq_of_agreeOn (hschemas : ctx.schemas = ctx'.schemas) : ∀ (e : Expr) (start : Nat),
    ctx.AgreeOn e.callNames ctx' → e.lower ctx start = e.lower ctx' start
  | .number _ _, _, _ | .string _ _, _, _ | .text _ _, _, _ | .bool _ _, _, _
  | .read _ _, _, _ => by simp only [lower]
  | .write _ _ value, start, h => by
    simp only [lower, lower_eq_of_agreeOn hschemas value start h]
  | .arithmetic _ _ left right, start, h => by
    have hright start := lower_eq_of_agreeOn hschemas right start h.right
    simp only [lower, lower_eq_of_agreeOn hschemas left start h.left, hright]
  | .branch _ condition thenBody none, start, h => by
    have hthen start := lower_eq_of_agreeOn hschemas thenBody start h.right
    simp only [lower, lower_eq_of_agreeOn hschemas condition start h.left, hthen]
  | .branch _ condition thenBody (some elseBody), start, h => by
    have hthen start := lower_eq_of_agreeOn hschemas thenBody start h.left.right
    have helse start := lower_eq_of_agreeOn hschemas elseBody start h.right
    simp only [lower, lower_eq_of_agreeOn hschemas condition start h.left.left, hthen, helse]
  | .loop _ count body, start, h => by
    have hbody start := lower_eq_of_agreeOn hschemas body start h.right
    simp only [lower, lower_eq_of_agreeOn hschemas count start h.left, hbody]
  | .each _ _ sequence body, start, h => by
    have hbody start := lower_eq_of_agreeOn hschemas body start h.right
    simp only [lower, lower_eq_of_agreeOn hschemas sequence start h.left, hbody]
  | .block _ statements, start, h => by
    simp only [lower, lowerStatements_eq_of_agreeOn hschemas statements start .void #[] h]
  | .bound _ target args, start, h => by
    simp only [lower, lowerArguments_eq_of_agreeOn hschemas target.params args start #[] h,
      Target.lower_eq_of_schemas hschemas]
  | .call _ name args target, start, h => by
    have hargs params := lowerArguments_eq_of_agreeOn hschemas params args start #[] h.tail
    simp only [lower, targetOf_eq_of_agreeOn h, hargs, Target.lower_eq_of_schemas hschemas]

theorem lowerStatements_eq_of_agreeOn (hschemas : ctx.schemas = ctx'.schemas) :
    ∀ (es : List Expr) (start : Nat) (last : StaticType) (before : Code),
      ctx.AgreeOn (allCallNames es) ctx' →
        lowerStatements ctx start last before es = lowerStatements ctx' start last before es
  | [], _, _, _, _ => by simp only [lowerStatements]
  | e :: es, start, last, before, h => by
    have he start := lower_eq_of_agreeOn hschemas e start h.left
    have hes last before := lowerStatements_eq_of_agreeOn hschemas es start last before h.right
    simp only [lowerStatements, he, hes]

theorem lowerArguments_eq_of_agreeOn (hschemas : ctx.schemas = ctx'.schemas) :
    ∀ (params : List StaticType) (es : List Expr) (start : Nat) (before : Code),
      ctx.AgreeOn (allCallNames es) ctx' →
        lowerArguments ctx start before params es = lowerArguments ctx' start before params es
  | [], _, _, _, _ | _ :: _, [], _, _, _ => by simp only [lowerArguments]
  | _ :: params, e :: es, start, before, h => by
    have he start := lower_eq_of_agreeOn hschemas e start h.left
    have hes before := lowerArguments_eq_of_agreeOn hschemas params es start before h.right
    simp only [lowerArguments, he, hes]

end

end Expr

namespace Definition

theorem lowerWith_eq_of_agreeOn {d : Definition} {pools : Pools}
    (hschemas : ctx.schemas = ctx'.schemas) (h : ctx.AgreeOn d.schema.body.callNames ctx') :
    d.lowerWith ctx pools = d.lowerWith ctx' pools := by
  have hbody : d.lowerBody ctx = d.lowerBody ctx' := by
    unfold lowerBody
    split
    · rename_i span statements hblock
      rw [hblock] at h
      rw [Expr.lowerStatements_eq_of_agreeOn hschemas statements 0 .void #[] h]
    · rfl
  rw [lowerWith, lowerWith, lower, lower, hbody]

theorem lowerAll_eq_of_agreeOn {ds : List Definition} {pools : Pools} {routines : Array Routine}
    (hschemas : ctx.schemas = ctx'.schemas)
    (h : ∀ d ∈ ds, ctx.AgreeOn d.schema.body.callNames ctx') :
    lowerAll ctx pools routines ds = lowerAll ctx' pools routines ds := by
  induction ds generalizing pools routines with
  | nil => rfl
  | cons d ds ih =>
    obtain ⟨hd, hds⟩ := List.forall_mem_cons.1 h
    simp only [lowerAll, lowerWith_eq_of_agreeOn hschemas hd, ih hds]

end Definition

end

/-- A call of this name is written in the file, as far as the file can be read. -/
def SourceFile.Calls (file : SourceFile) (name : String) : Prop :=
  ∃ schema, Schema.ofSource file.id.display file.text = .ok schema ∧ name ∈ schema.body.callNames

/-- No call of this name looks for the operation. -/
def Operation.UnrelatedTo (op : Operation) (name : String) : Prop :=
  op.name ≠ name ∧ ∀ type, op.name ≠ Context.alternate type name

theorem Context.agreeOn_register {registry : Registry} {schemas : Table String Signature}
    {op : Operation} {names : List String} (h : ∀ name ∈ names, op.UnrelatedTo name) :
    AgreeOn names ⟨registry.register op, schemas⟩ ⟨registry, schemas⟩ where
  operation name hn := Table.find?_insert_of_ne (h name hn).1.symm
  typed name hn type := Table.find?_insert_of_ne ((h name hn).2 type).symm
  schema _ := rfl

namespace Program

variable {registry : Registry} {limits : Limits}

theorem ofDefinitions_register {op : Operation} {ds : List Definition}
    (h : ∀ d ∈ ds, ∀ name ∈ d.schema.body.callNames, op.UnrelatedTo name) :
    ofDefinitions (registry.register op) limits ds = ofDefinitions registry limits ds := by
  have hall schemas : Definition.lowerAll ⟨registry.register op, schemas⟩ {} #[] ds =
      Definition.lowerAll ⟨registry, schemas⟩ {} #[] ds :=
    Definition.lowerAll_eq_of_agreeOn rfl fun d hd => Context.agreeOn_register (h d hd)
  simp only [ofDefinitions, hall]

/-- A corpus is compiled to the same program, or refused for the same reason, whether or not an
operation is registered that none of its calls looks for. -/
theorem ofCorpus_register (registry : Registry) (limits : Limits) (files : List SourceFile)
    (op : Operation)
    (h : ∀ file ∈ files, ∀ name, file.Calls name → op.UnrelatedTo name) :
    ofCorpus (registry.register op) limits files = ofCorpus registry limits files := by
  refine bind_congr_of_ok fun ds hds => ofDefinitions_register fun d hd name hname => ?_
  obtain ⟨file, hfile, hdefines⟩ :=
    exists_left_of_forall₂ (Submission.definitions_corpus_eq_ok.1 hds) hd
  exact h file hfile name ⟨d.schema, hdefines.schema, hname⟩

/-- A file with one call, which is bound to an operation by the type of its argument. -/
def counting : SourceFile :=
  ⟨⟨"demo", "a"⟩, "schema(s string) -> number \x7b s->length() \x7d"⟩

theorem eq_length_of_calls_counting {name : String} (h : counting.Calls name) :
    name = "length" := by
  obtain ⟨schema, hschema, hname⟩ := h
  have hread : Schema.ofSource counting.id.display counting.text = .ok {
      name? := none
      params := [⟨"s", .string, ⟨7, 15⟩⟩]
      returns := .number
      body := .block ⟨27, 42⟩ [.call ⟨29, 40⟩ "length" [.read ⟨29, 30⟩ "s"] none]
      span := ⟨0, 42⟩ } := by cbv
  cases hread.symm.trans hschema
  simpa using hname

/-- A callback of the name `spawn` is not looked for. -/
theorem counting_register : (∀ file ∈ [counting], ∀ name, file.Calls name → Operation.UnrelatedTo
      ⟨"spawn", [], .void, .host fun _ h => (.ok default, h), "host", ""⟩ name) ∧
    ofCorpus (Registry.standard.registerHost "spawn" [] .void fun _ h => (.ok default, h)) {}
      [counting] = ofCorpus .standard {} [counting] := by
  have hunrelated : ∀ file ∈ [counting], ∀ name, file.Calls name →
      Operation.UnrelatedTo ⟨"spawn", [], .void, .host fun _ h => (.ok default, h), "host", ""⟩
        name := by
    intro file hfile name hname
    cases List.mem_singleton.1 hfile
    cases eq_length_of_calls_counting hname
    refine ⟨by decide, fun type htype => ?_⟩
    have hslash : '/' ∈ "spawn".toList := by
      rw [show "spawn" = Context.alternate type "length" from htype, Context.alternate]
      simp
    exact absurd hslash (by decide)
  exact ⟨hunrelated, ofCorpus_register .standard {} [counting] _ hunrelated⟩

end Program

end EventScript
