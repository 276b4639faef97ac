import EventScript.Proofs.Codec.Decoded
import EventScript.Proofs.SortedMap

/-!
The reading of documents, name by name. Every encoded document is delimited, and a document that was
read is written and comes back as it was.
-/
namespace EventScript

namespace Document

open Decoder Wire

variable {bytes : List UInt8} {doc : Document}

/-- The reader of documents. -/
def decoder : Decoder Document := do return .ofList (← many entry (← varint) [])

theorem decode_eq (bytes : List UInt8) : decode bytes = decoder.runAll bytes := rfl

/-- A document as it comes back after it was written. -/
def reread (doc : Document) : Document := .ofList (doc.entries.map fun e => (e.1, e.2.reread))

/-- Every encoded document is delimited. -/
theorem delimits_of_encode (h : doc.encode = .ok bytes) : decoder.Delimits bytes doc.reread := by
  obtain ⟨hsize, _, ⟨pieces, hpieces, rfl⟩, rfl⟩ := encode_eq_ok.1 h
  have hentries : List.Forall₂ entry.Delimits pieces
      (doc.entries.map fun e => (e.1, e.2.reread)) := by
    rw [List.forall₂_map_right_iff]
    refine hpieces.flip.imp ?_
    rintro _ _ ⟨value, hname, hvalue, rfl⟩
    exact (delimits_string hname).bind ((Datum.delimits_of_encode hvalue).bind_pure rfl)
  have hmany := delimits_many hentries []
  rw [List.length_map] at hmany
  exact (delimits_varint hsize).bind (hmany.bind_pure rfl)

/-- What reading a document promises of its data. -/
def Settled (doc : Document) : Prop :=
  doc.size < lengthLimit ∧ ∀ e ∈ doc.entries, (utf8 e.1).length < lengthLimit ∧ e.2.Settled 0

theorem settled_of_decode (hlength : bytes.length < lengthLimit) (h : decode bytes = .ok doc) :
    doc.Settled := by
  obtain ⟨r, h, _⟩ := runAll_eq_ok.1 ((decode_eq bytes).symm.trans h)
  obtain ⟨count, r₁, hcount, h⟩ := Decoder.bind_eq_ok.1 h
  obtain ⟨es, r₂, hes, h⟩ := Decoder.bind_eq_ok.1 h
  obtain ⟨rfl, rfl⟩ := Decoder.pure_eq_ok.1 h
  obtain ⟨hlimit, hr₁⟩ := read_varint hcount
  obtain ⟨_, rfl, rfl, hes, _⟩ := read_many
    (P := fun e => (utf8 e.1).length < lengthLimit ∧ e.2.Settled 0) (fun _ => 0)
    (fun hr h => by
      obtain ⟨name, r₁, hname, h⟩ := Decoder.bind_eq_ok.1 h
      obtain ⟨d, r₂, hd, h⟩ := Decoder.bind_eq_ok.1 h
      obtain ⟨rfl, rfl⟩ := Decoder.pure_eq_ok.1 h
      obtain ⟨hname, hlt⟩ := read_string hname
      obtain ⟨hd, hlt'⟩ := Datum.settles_datum _ _ _ (by omega) hd
      exact ⟨⟨hname, hd⟩, by omega⟩)
    (Nat.lt_trans hr₁ hlength) hes
  exact ⟨Nat.lt_of_le_of_lt (SortedMap.size_ofList_le _) hlimit,
    SortedMap.forall_ofList (P := fun name => (utf8 name).length < lengthLimit)
      (Q := Datum.Settled 0) hes⟩

theorem encode_of_settled (h : doc.Settled) : ∃ bytes, doc.encode = .ok bytes := by
  have hwrites : ∀ e ∈ doc.entries, ∃ piece, WritesNamed e piece := fun e he => by
    obtain ⟨hname, _, value, hvalue⟩ := h.2 e he
    exact ⟨_, value, hname, hvalue, rfl⟩
  obtain ⟨pieces, hpieces⟩ := exists_forall₂ hwrites
  exact ⟨_, encode_eq_ok.2 ⟨h.1, _, ⟨pieces, hpieces, rfl⟩, rfl⟩⟩

theorem reread_eq_self (h : ∀ e ∈ doc.entries, e.2.Everywhere Datum.Faithful) :
    doc.reread = doc := by
  have hmap : (doc.entries.map fun e => (e.1, e.2.reread)) = doc.entries.map id :=
    List.map_congr_left fun e he => Prod.ext rfl (Datum.reread_eq_self (h e he))
  rw [reread, hmap, List.map_id, SortedMap.ofList_entries]

theorem decode_of_encode (h : doc.encode = .ok bytes) : decode bytes = .ok doc.reread :=
  (delimits_of_encode h).runAll

theorem isPlain_of_encode (h : doc.encode = .ok bytes) :
    ∀ e ∈ doc.entries, e.2.Everywhere Datum.IsPlain := fun e he => by
  obtain ⟨_, _, hcontents, _⟩ := encode_eq_ok.1 h
  obtain ⟨_, value, _, hvalue, _⟩ := hcontents.exists_piece he
  exact Datum.isPlain_of_encodeAt hvalue

end Document

end EventScript
