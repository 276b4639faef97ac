import EventScript.Proofs.Codec.Documents
import EventScript.Proofs.Text.Utf8
import Mathlib

/-!
Save cycles. Whatever input was accepted, what was read from it is written with ascending names and
read again as it was, so that the first cycle already reaches the bytes all later ones keep.
-/
namespace EventScript

open Wire

namespace Datum

variable {d : Datum}

theorem Settled.decode (h : d.Settled 0) :
    ∃ saved, d.encode = .ok saved ∧ decode saved = .ok d := by
  obtain ⟨hfaithful, saved, hsaved⟩ := h
  have hdecode := (delimits_of_encode hsaved).runAll
  rw [reread_eq_self hfaithful] at hdecode
  exact ⟨saved, hsaved, hdecode⟩

theorem settled_of_decode {bytes : List UInt8} (hlength : bytes.length < lengthLimit)
    (h : decode bytes = .ok d) : d.Settled 0 := by
  obtain ⟨r, h, _⟩ := Decoder.runAll_eq_ok.1 h
  exact (settles_datum _ _ _ hlength h).1

end Datum

/-- Saving writes the names strictly ascending by their bytes, and loading what was saved gives the
same document, with dict entries and text segments in place; saving that one makes no difference. -/
structure Document.Stable (doc : Document) (saved : List UInt8) : Prop where
  saves : doc.encode = .ok saved
  /-- The bytes name by name, as the entries stand. -/
  written : ∃ contents, Sequence WritesNamed doc.entries contents ∧
    saved = varint doc.size ++ contents
  ascending : doc.entries.Pairwise fun e f => utf8 e.1 < utf8 f.1
  loads : ∃ again, Document.decode saved = .ok again ∧ again = doc ∧ again.encode = .ok saved

/-- Every document and every datum that is read from less than 2 ^ 32 bytes is stable. -/
theorem saveCycle_stable {bytes : List UInt8} (hlength : bytes.length < lengthLimit) :
    (∀ doc, Document.decode bytes = .ok doc → ∃ saved, doc.Stable saved) ∧
    ∀ d, Datum.decode bytes = .ok d → ∃ saved, d.encode = .ok saved ∧
      ∃ again, Datum.decode saved = .ok again ∧ again = d ∧ again.encode = .ok saved := by
  constructor
  · intro doc hdoc
    have hsettled := Document.settled_of_decode hlength hdoc
    obtain ⟨saved, hsaved⟩ := Document.encode_of_settled hsettled
    have hloads := Document.decode_of_encode hsaved
    rw [Document.reread_eq_self fun e he => (hsettled.2 e he).2.1] at hloads
    obtain ⟨_, hwritten⟩ := Document.encode_eq_ok.1 hsaved
    exact ⟨saved, hsaved, hwritten, doc.ascending.imp utf8_lt_utf8, doc, hloads, rfl, hsaved⟩
  · intro d hd
    obtain ⟨saved, hsaved, hloads⟩ := (Datum.settled_of_decode hlength hd).decode
    exact ⟨saved, hsaved, d, hloads, rfl, hsaved⟩

/-- Names in descending order, a count and a length longer than need be, an empty segment. -/
theorem saveCycle_stable_unsorted :
    ∃ doc saved, Document.decode [0x82, 0, 1, 98, 2, 0x81, 0, 120, 1, 97, 8, 2, 0, 0, 0, 1, 121] =
      .ok doc ∧ doc.Stable saved ∧ saved = [2, 1, 97, 8, 1, 0, 1, 121, 1, 98, 2, 1, 120] := by
  have hdecode : Document.decode [0x82, 0, 1, 98, 2, 0x81, 0, 120, 1, 97, 8, 2, 0, 0, 0, 1, 121] =
      .ok ⟨[("a", .text (.plain "y")), ("b", .string "x")], by decide⟩ := by cbv
  obtain ⟨saved, hstable⟩ := (saveCycle_stable (by decide)).1 _ hdecode
  refine ⟨_, saved, hdecode, hstable, ?_⟩
  have := hstable.saves
  cbv at this
  cases this
  rfl

end EventScript
