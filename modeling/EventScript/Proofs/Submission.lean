import Mathlib
import EventScript.Corpus
import EventScript.Proofs.Lowering.Layout
import EventScript.Proofs.SourceTree

/-!
What is handed to the compiler. Both ways of submitting schemas read trees first and then compile
them together, so what holds of trees read from text holds of everything that is compiled.
-/
namespace EventScript

/-- What is compiled together: a single text, or the files of a corpus. -/
inductive Submission where
  | text (content : String)
  | corpus (files : List SourceFile)

namespace Submission

/-- The schemas that are read, under the names they are known by. -/
def definitions : Submission → Compiled (List Definition)
  | text content => do
    let schema ← Schema.ofText content
    return [⟨schema.name?.getD Program.defaultName, none, schema⟩]
  | corpus files => files.mapM fun file => do
    let schema ← Schema.ofSource file.id.display file.text
    return ⟨file.id.methodName, some file.id, schema⟩

def compile (registry : Registry) (limits : Limits) : Submission → Compiled Program
  | text content => Program.ofSource registry limits content
  | corpus files => Program.ofCorpus registry limits files

variable {registry : Registry} {limits : Limits} {source : Submission} {p : Program}
  {ds : List Definition}

theorem compile_eq : source.compile registry limits =
    source.definitions >>= Program.ofDefinitions registry limits := by
  cases source with
  | text content =>
    simp only [compile, definitions, Program.ofSource]
    cases Schema.ofText content <;> rfl
  | corpus files => rfl

/-- Every schema is read from some text. -/
theorem exists_text_of_definitions (h : source.definitions = .ok ds) :
    ∀ d ∈ ds, ∃ text, Schema.ofText text = .ok d.schema := by
  cases source with
  | text content =>
    obtain ⟨schema, hs, h⟩ := bind_eq_ok.1 h
    cases h
    simpa using ⟨content, hs⟩
  | corpus files =>
    simp only [definitions] at h
    induction files generalizing ds with
    | nil =>
      cases h
      simp
    | cons file files ih =>
      rw [List.mapM_cons] at h
      simp only [bind_eq_ok] at h
      obtain ⟨d, ⟨schema, hs, hd⟩, rest, hrest, h⟩ := h
      cases hd
      cases h
      exact List.forall_mem_cons.2 ⟨⟨file.text, mapError_eq_ok.1 hs⟩, ih hrest⟩

theorem isSource_of_definitions (h : source.definitions = .ok ds) :
    ∀ d ∈ ds, d.schema.IsSource := by
  intro d hd
  obtain ⟨text, htext⟩ := exists_text_of_definitions h d hd
  exact Schema.isSource_of_ofText htext

/-- What is accepted has the layout of the schemas that are read. -/
theorem lowers_of_compile {schemas : Table String Signature} (named : registry.Named)
    (hds : source.definitions = .ok ds)
    (hschemas : Definition.signatures Table.empty ds = .ok schemas)
    (h : source.compile registry limits = .ok p) :
    ∃ pools, p.Lowers ⟨registry, schemas⟩ ds pools ∧ p.limits = limits := by
  rw [compile_eq, hds] at h
  obtain ⟨_, pools, hschemas', hp⟩ := Program.lowers_of_ofDefinitions named
    (fun d hd => (isSource_of_definitions hds d hd).body.unbound) h
  rw [hschemas] at hschemas'
  cases hschemas'
  exact ⟨pools, hp⟩

def echo : Submission := .text "schema echo(x number) -> number { x }"

theorem definitions_echo : echo.definitions = .ok [.echo] := by cbv

theorem compile_echo (registry : Registry) : echo.compile registry {} = .ok .echo := by
  rw [compile_eq, definitions_echo]
  exact Program.ofDefinitions_echo registry

end Submission

end EventScript
