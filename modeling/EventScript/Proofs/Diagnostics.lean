import EventScript.Proofs.CorpusNames
import EventScript.Proofs.Token.Places

/-!
Where the errors of compilation point. Every error of a corpus names one of its files and points to
a place that can be cut out of the text of that file, as every error of a single text points into
that text. There is one exception: an escape that is refused for a character of several bytes has
its place end within that character.
-/
namespace EventScript

open Lexer

/-- The place of the error is within the text. It begins between characters, and ends between
characters but for an escape that is split. -/
structure CompileError.PointsInto (e : CompileError) (text : String) : Prop where
  ordered : e.span.start ≤ e.span.stop
  inside : e.span.stop ≤ text.utf8ByteSize
  start : String.Pos.Raw.IsValid text ⟨e.span.start⟩
  stop : String.Pos.Raw.IsValid text ⟨e.span.stop⟩ ↔ ¬e.SplitsEscape text

namespace CompileError

variable {e : CompileError} {text : String}

theorem pointsInto_of_cuts (h : e.span.Cuts text) : e.PointsInto text where
  ordered := h.ordered
  inside := h.stop.le_rawEndPos
  start := h.start
  stop := by
    refine iff_of_true h.stop ?_
    rintro ⟨_, before, c, after, htext, hc, hspan⟩
    have hstop := h.stop
    rw [hspan] at hstop
    exact not_isValid_of_escape htext hc hstop

theorem pointsInto_of_splits (h : e.SplitsEscape text) : e.PointsInto text := by
  obtain ⟨_, before, c, after, htext, hc, hspan⟩ := id h
  refine ⟨?_, ?_, ?_, ?_⟩
  · rw [hspan]
    exact Nat.le_add_right _ 2
  · have hbackslash : '\\'.utf8Size = 1 := rfl
    rw [hspan, utf8ByteSize_eq_width, htext]
    simp [hbackslash]
    omega
  · rw [hspan]
    exact isValid_iff_passes.2 ⟨'\\' :: c :: after, before, htext, (Nat.zero_add _).symm⟩
  · rw [hspan]
    exact iff_of_false (not_isValid_of_escape htext hc) (not_not_intro h)

/-- An error that is about a place, whether or not its source is named. -/
theorem pointsInto_of_at (h : e.At (Span.Cuts text)) : e.PointsInto text :=
  pointsInto_of_cuts h.span

theorem pointsInto_inSource {name : String} (h : e.PointsInto text) :
    (e.inSource name).PointsInto text :=
  ⟨h.ordered, h.inside, h.start, h.stop⟩

theorem source?_inSource {name : String} (h : e.source? = none) :
    (e.inSource name).source? = some name := by
  simp [inSource, h]

end CompileError

section

variable {text : String} {e : CompileError}

theorem pointsInto_of_blames (h : Blames text e) : e.PointsInto text :=
  h.2.elim CompileError.pointsInto_of_cuts CompileError.pointsInto_of_splits

namespace Schema

theorem pointsInto_of_ofText (h : ofText text = .error e) : e.source? = none ∧ e.PointsInto text := by
  rcases bind_eq_error.1 h with h | ⟨tokens, htokens, h⟩
  · have hblames := (places_of_lex text).1 e h
    exact ⟨hblames.1, pointsInto_of_blames hblames⟩
  · have hat := (parse_keeps (places_cuts text) ((places_of_lex text).2 tokens htokens)).1 e h
    exact ⟨hat.source, CompileError.pointsInto_of_at hat⟩

theorem lies_of_ofText {schema : Schema} (h : ofText text = .ok schema) :
    schema.Lies (Span.Cuts text) := by
  obtain ⟨tokens, htokens, h⟩ := bind_eq_ok.1 h
  exact (parse_keeps (places_cuts text) ((places_of_lex text).2 tokens htokens)).2 schema h

end Schema

namespace Definition

/-- The complaint about a name that two definitions have is about the second of them. -/
theorem exists_of_signatures_error {known : Table String Signature} {ds : List Definition}
    (h : signatures known ds = .error e) :
    ∃ d ∈ ds, e = ⟨.duplicateSchema d.name, d.schema.span, some d.label⟩ := by
  induction ds generalizing known with
  | nil => cases h
  | cons d ds ih =>
    unfold signatures at h
    split at h
    · cases h
      exact ⟨d, by simp, rfl⟩
    · obtain ⟨d', hd', he⟩ := ih h
      exact ⟨d', by simp [hd'], he⟩

/-- Whatever definitions are refused for is the whole program's fault or that of one of them. -/
theorem exists_of_ofDefinitions_error {registry : Registry} {limits : Limits}
    {ds : List Definition} (h : Program.ofDefinitions registry limits ds = .error e) :
    e = ⟨.tooManySchemas, .none, none⟩ ∨ ∃ d ∈ ds, ∀ text, d.schema.Lies (Span.Cuts text) →
      e.source? = some d.label ∧ e.span.Cuts text := by
  rcases bind_eq_error.1 h with h | ⟨schemas, _, h⟩
  · obtain ⟨d, hd, rfl⟩ := exists_of_signatures_error h
    exact .inr ⟨d, hd, fun text hlies => ⟨rfl, hlies.span⟩⟩
  split at h
  · cases h
    exact .inl rfl
  rcases bind_eq_error.1 h with h | ⟨_, _, h⟩
  · obtain ⟨d, hd, pools, h⟩ := exists_of_lowerAll_error h
    refine .inr ⟨d, hd, fun text hlies => ?_⟩
    obtain ⟨e', hat, rfl⟩ := exists_of_lowerWith (places_cuts text) hlies h
    exact ⟨CompileError.source?_inSource hat.source, hat.span⟩
  · cases h

end Definition

end

namespace Program

variable {limits : Limits} {registry : Registry} {e : CompileError}

theorem pointsInto_of_ofSource {text : String} (h : ofSource registry limits text = .error e) :
    e.PointsInto text := by
  rcases bind_eq_error.1 h with h | ⟨schema, hschema, h⟩
  · exact (Schema.pointsInto_of_ofText h).2
  refine CompileError.pointsInto_of_cuts ?_
  rcases Definition.exists_of_ofDefinitions_error h with rfl | ⟨d, hd, hplace⟩
  · exact (places_cuts text).none
  · cases List.mem_singleton.1 hd
    exact (hplace text (Schema.lies_of_ofText hschema)).2

theorem exists_file_of_ofCorpus_error {files : List SourceFile}
    (h : ofCorpus registry limits files = .error e) (hwhole : e.complaint ≠ .tooManySchemas) :
    ∃ file ∈ files, e.source? = some file.id.display ∧ e.PointsInto file.text := by
  rcases bind_eq_error.1 h with h | ⟨ds, hds, h⟩
  · obtain ⟨file, hfile, h⟩ := mapM_eq_error h
    refine ⟨file, hfile, ?_⟩
    rcases bind_eq_error.1 h with h | ⟨_, _, h⟩
    · obtain ⟨e', he', rfl⟩ := mapError_eq_error.1 h
      have ⟨hsource, hplace⟩ := Schema.pointsInto_of_ofText he'
      exact ⟨CompileError.source?_inSource hsource, CompileError.pointsInto_inSource hplace⟩
    · cases h
  · rcases Definition.exists_of_ofDefinitions_error h with rfl | ⟨d, hd, hplace⟩
    · exact absurd rfl hwhole
    · obtain ⟨file, hfile, hdefines⟩ :=
        exists_left_of_forall₂ (Submission.definitions_corpus_eq_ok.1 hds) hd
      have ⟨hsource, hcuts⟩ :=
        hplace file.text (Schema.lies_of_ofText (mapError_eq_ok.1 hdefines.schema))
      refine ⟨file, hfile, ?_, CompileError.pointsInto_of_cuts hcuts⟩
      rw [hsource, Definition.label, hdefines.resource]
      rfl

/-- Every error is about a place in its source, and errors of a corpus name a file that is their
source. Only a corpus with too many files is no file's fault. -/
theorem errors_pointIntoSource (registry : Registry) (limits : Limits) :
    (∀ files e, ofCorpus registry limits files = .error e → e.complaint ≠ .tooManySchemas →
      ∃ file ∈ files, e.source? = some file.id.display ∧ e.PointsInto file.text) ∧
    ∀ text e, ofSource registry limits text = .error e → e.PointsInto text :=
  ⟨fun _ _ => exists_file_of_ofCorpus_error, fun _ _ => pointsInto_of_ofSource⟩

/-- A file with an escape of a character that takes two bytes. -/
def splitting : SourceFile := ⟨⟨"demo", "a"⟩, "schema() \x7b \"\\\u00e9\" \x7d"⟩

theorem ofCorpus_splitting (registry : Registry) (limits : Limits) :
    ofCorpus registry limits [splitting] =
      .error ⟨.invalidEscape, ⟨12, 14⟩, some splitting.id.display⟩ := by
  have hread : Schema.ofSource splitting.id.display splitting.text =
      .error ⟨.invalidEscape, ⟨12, 14⟩, some splitting.id.display⟩ := by cbv
  simp [ofCorpus, hread, bind, Except.bind]

/-- The error is about the file, and its place ends within a character. -/
theorem splitting_pointsInto : ∃ e, ofCorpus .standard {} [splitting] = .error e ∧
    e.complaint ≠ .tooManySchemas ∧
      (∃ file ∈ [splitting], e.source? = some file.id.display ∧ e.PointsInto file.text) ∧
        ¬String.Pos.Raw.IsValid splitting.text ⟨e.span.stop⟩ := by
  refine ⟨_, ofCorpus_splitting _ _, nofun, ?_, ?_⟩
  · exact (errors_pointIntoSource .standard {}).1 _ _ (ofCorpus_splitting _ _) nofun
  · have htext : splitting.text.toList =
        "schema() \x7b \"".toList ++ '\\' :: '\u00e9' :: "\" \x7d".toList := by decide
    exact not_isValid_of_escape htext (by decide)

end Program

end EventScript
