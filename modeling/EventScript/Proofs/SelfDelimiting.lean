import EventScript.Proofs.Codec.Documents
import Mathlib

/-!
Encodings are self-delimiting. Whatever follows one, its reader takes just the encoding; what
follows it in a whole input is reported, and every cut is reported where it falls.
-/
namespace EventScript

/-- The encoding says itself where it ends, to its reader as to the reading of whole inputs. -/
structure SelfDelimiting {α : Type} (decoder : Decoder α)
    (decode : List UInt8 → Except CodecError α) (bytes : List UInt8) : Prop where
  /-- It is read as the same wherever it stands, with the reader at its end. -/
  reads : ∃ a, decode bytes = .ok a ∧ ∀ rest position,
    decoder.onReader ⟨bytes ++ rest, position⟩ = (.ok a, ⟨rest, position + bytes.length⟩)
  trailing : ∀ rest, rest ≠ [] → decode (bytes ++ rest) = .error (.trailingBytes rest.length)
  truncated : ∀ part, part <+: bytes → part ≠ bytes →
    decode part = .error (.unexpectedEnd part.length)

theorem Decoder.Delimits.selfDelimiting {α : Type} {p : Decoder α} {bytes : List UInt8} {a : α}
    (h : p.Delimits bytes a) : SelfDelimiting p p.runAll bytes where
  reads := ⟨a, h.runAll, h.reads⟩
  trailing _ hrest := h.runAll_append hrest
  truncated part hprefix hne := by
    obtain ⟨missing, rfl⟩ := hprefix
    exact h.runAll_part rfl fun hmissing => hne (by rw [hmissing, List.append_nil])

/-- What is written of a datum or of a document is self-delimiting. -/
theorem encodings_selfDelimiting :
    (∀ (d : Datum) (bytes : List UInt8), d.encode = .ok bytes →
      SelfDelimiting Decoder.datum Datum.decode bytes) ∧
    ∀ (doc : Document) (bytes : List UInt8), doc.encode = .ok bytes →
      SelfDelimiting Document.decoder Document.decode bytes :=
  ⟨fun _ _ h => (Datum.delimits_of_encode h).selfDelimiting,
    fun _ _ h => (Document.delimits_of_encode h).selfDelimiting⟩

/-- A dict in a document, with a list, a text, a number and a struct in it. -/
def Document.nested : Document :=
  ⟨[("k", .dict [(.list [.string "a"], .text (.plain "b")), (.number .one, .struct [])])], by simp⟩

/-- The bytes of that document. -/
def Document.nestedBytes : List UInt8 :=
  [1, 1, 107, 4, 2, 3, 1, 2, 1, 97, 8, 1, 0, 1, 98, 1] ++ Wire.word 0x3ff0000000000000 ++ [5, 0]

theorem Document.encode_nested : Document.nested.encode = .ok Document.nestedBytes := by
  cbv

theorem encodings_selfDelimiting_nested :
    (Datum.list [.string "a"]).encode = .ok [3, 1, 2, 1, 97] ∧
    Decoder.datum.onReader ⟨[3, 1, 2, 1, 97] ++ [7], 0⟩ = (.ok (.list [.string "a"]), ⟨[7], 5⟩) ∧
    Document.nested.encode = .ok Document.nestedBytes ∧
    Document.decode (Document.nestedBytes ++ [7]) = .error (.trailingBytes 1) ∧
    Document.decode [1, 1, 107, 4, 2, 3, 1] = .error (.unexpectedEnd 7) := by
  have hlist : (Datum.list [.string "a"]).encode = .ok [3, 1, 2, 1, 97] := by cbv
  have hdelimits := encodings_selfDelimiting.2 _ _ Document.encode_nested
  refine ⟨hlist, ?_, Document.encode_nested, hdelimits.trailing [7] (by simp), ?_⟩
  · obtain ⟨d, hd, hreads⟩ := (encodings_selfDelimiting.1 _ _ hlist).reads
    have : Datum.decode [3, 1, 2, 1, 97] = .ok (.list [.string "a"]) := by cbv
    cases hd.symm.trans this
    exact hreads [7] 0
  · exact hdelimits.truncated _ (by decide) (by decide)

end EventScript
