import EventScript.Proofs.Codec.Delimited
import EventScript.Proofs.Codec.Encoding
import EventScript.Proofs.Datum.Tree

/-!
Reading what was written. Every encoding is delimited, and what comes back is the datum put together
anew: dicts entry by entry, texts segment by segment.
-/
namespace EventScript

/-- A text as it comes back. -/
def RichText.reread (t : RichText) : RichText := .ofSegments (t.segments.map Segment.reread)

namespace Datum

mutual

/-- A datum as it comes back after it was written. -/
def reread : Datum → Datum
  | number n => .number n
  | string s => .string s
  | list items => .list (rereadItems items)
  | dict entries => .ofEntries (rereadEntries entries)
  | struct fields => .struct (rereadItems fields)
  | vector v => .vector v
  | uuid u => .uuid u
  | text t => .text t.reread
  | extension object => .extension object

def rereadItems : List Datum → List Datum
  | [] => []
  | d :: ds => reread d :: rereadItems ds

def rereadEntries : List (Datum × Datum) → List (Datum × Datum)
  | [] => []
  | (k, v) :: es => (reread k, reread v) :: rereadEntries es

end

theorem rereadItems_eq (ds : List Datum) : rereadItems ds = ds.map reread := by
  induction ds with
  | nil => rfl
  | cons d ds ih => rw [rereadItems, ih, List.map_cons]

theorem rereadEntries_eq (es : List (Datum × Datum)) :
    rereadEntries es = es.map fun e => (reread e.1, reread e.2) := by
  induction es with
  | nil => rfl
  | cons e es ih => rw [rereadEntries, ih, List.map_cons]

open Decoder Wire

variable {depth : Nat} {bytes : List UInt8}

theorem delimits_segments {ss : List Segment} (h : Sequence WritesSegment ss bytes) :
    (many segment ss.length []).Delimits bytes (ss.map Segment.reread) := by
  obtain ⟨pieces, hpieces, rfl⟩ := h
  have : List.Forall₂ segment.Delimits pieces (ss.map Segment.reread) := by
    rw [List.forall₂_map_right_iff]
    exact hpieces.flip.imp fun _ _ h => h.2 ▸ delimits_segment h.1
  simpa using delimits_many this []

theorem delimits_items {item : Decoder Datum} {ds : List Datum}
    (h : Sequence (fun d piece => item.Delimits piece d.reread) ds bytes) :
    (many item ds.length []).Delimits bytes (ds.map reread) := by
  obtain ⟨pieces, hpieces, rfl⟩ := h
  have : List.Forall₂ item.Delimits pieces (ds.map reread) := by
    rw [List.forall₂_map_right_iff]
    exact hpieces.flip
  simpa using delimits_many this []

theorem delimits_entries {item : Decoder Datum} {es : List (Datum × Datum)}
    (h : Sequence (fun e piece => ∃ key value, item.Delimits key e.1.reread ∧
      item.Delimits value e.2.reread ∧ piece = key ++ value) es bytes) :
    (many (entry item) es.length []).Delimits bytes
      (es.map fun e => (e.1.reread, e.2.reread)) := by
  obtain ⟨pieces, hpieces, rfl⟩ := h
  have : List.Forall₂ (entry item).Delimits pieces
      (es.map fun e => (e.1.reread, e.2.reread)) := by
    rw [List.forall₂_map_right_iff]
    refine hpieces.flip.imp ?_
    rintro _ _ ⟨key, value, hkey, hvalue, rfl⟩
    exact hkey.bind (hvalue.bind_pure rfl)
  simpa using delimits_many this []

/-- A datum is delimited if what it holds is, one level further down. -/
theorem delimits_datumTo {d : Datum} {levels : Nat}
    (inner : ∀ e ∈ d.children, ∀ piece, encodeAt (depth + 1) e = .ok piece →
      (datumTo levels).Delimits piece e.reread)
    (h : encodeAt depth d = .ok bytes) : (datumTo (levels + 1)).Delimits bytes d.reread := by
  rw [datumTo]
  cases d with
  | number n =>
    obtain ⟨_, rfl⟩ := encodeAt_number_eq_ok.1 h
    refine (delimits_varint (by decide)).bind ?_
    exact (delimits_number n).bind_pure rfl
  | string s =>
    obtain ⟨_, hs, rfl⟩ := encodeAt_string_eq_ok.1 h
    refine (delimits_varint (by decide)).bind ?_
    exact (delimits_string hs).bind_pure rfl
  | list items =>
    obtain ⟨_, hlength, contents, hcontents, rfl⟩ := encodeAt_list_eq_ok.1 h
    have hitems := (encodeItems_eq_ok.1 hcontents).imp inner
    refine (delimits_varint (by decide)).bind ((delimits_varint hlength).bind ?_)
    exact (delimits_items hitems).bind_pure (by rw [reread, rereadItems_eq])
  | dict entries =>
    obtain ⟨_, hlength, contents, hcontents, rfl⟩ := encodeAt_dict_eq_ok.1 h
    refine (delimits_varint (by decide)).bind ((delimits_varint hlength).bind ?_)
    refine (delimits_entries ?_).bind_pure (by rw [reread, rereadEntries_eq])
    refine (encodeEntries_eq_ok.1 hcontents).imp ?_
    rintro e he _ ⟨key, value, hkey, hvalue, rfl⟩
    exact ⟨key, value, inner _ (key_mem_children he) _ hkey,
      inner _ (value_mem_children he) _ hvalue, rfl⟩
  | struct fields =>
    obtain ⟨_, hlength, contents, hcontents, rfl⟩ := encodeAt_struct_eq_ok.1 h
    have hfields := (encodeItems_eq_ok.1 hcontents).imp inner
    refine (delimits_varint (by decide)).bind ((delimits_varint hlength).bind ?_)
    exact (delimits_items hfields).bind_pure (by rw [reread, rereadItems_eq])
  | vector v =>
    obtain ⟨_, rfl⟩ := encodeAt_vector_eq_ok.1 h
    refine (delimits_varint (by decide)).bind ?_
    exact (delimits_number v.x).bind
      ((delimits_number v.y).bind ((delimits_number v.z).bind_pure rfl))
  | uuid u =>
    obtain ⟨_, rfl⟩ := encodeAt_uuid_eq_ok.1 h
    have htake : (word u.high ++ word u.low).take 8 = word u.high := rfl
    have hdrop : (word u.high ++ word u.low).drop 8 = word u.low := rfl
    have hbytes : (exactly 16).Delimits (word u.high ++ word u.low) _ := delimits_exactly rfl
    refine (delimits_varint (by decide)).bind ?_
    exact hbytes.bind_pure (by rw [htake, hdrop, ofBytes_word, ofBytes_word, reread])
  | text t =>
    obtain ⟨_, hlength, contents, hcontents, rfl⟩ := encodeAt_text_eq_ok.1 h
    refine (delimits_varint (by decide)).bind ((delimits_varint hlength).bind ?_)
    exact (delimits_segments (segments_eq_ok.1 hcontents)).bind_pure rfl
  | extension object => exact absurd h encodeAt_extension_ne_ok

/-- Every encoding is delimited, and comes back as the datum put together anew. -/
theorem delimits_of_encodeAt {d : Datum} (h : encodeAt depth d = .ok bytes) :
    (datumTo (maxDepth + 1 - depth)).Delimits bytes d.reread := by
  induction d using childInduction generalizing depth bytes with
  | step d ih =>
    rw [Nat.sub_add_comm (depth_le_of_encodeAt h)]
    refine delimits_datumTo (fun e he piece hpiece => ?_) h
    have := ih e he hpiece
    rwa [Nat.add_sub_add_right] at this

theorem delimits_of_encode {d : Datum} (h : d.encode = .ok bytes) :
    Decoder.datum.Delimits bytes d.reread :=
  delimits_of_encodeAt h

/-- What lies inside a datum that is written is written, one level further down. -/
theorem encodeAt_child {d : Datum} (h : encodeAt depth d = .ok bytes) {e : Datum}
    (he : e ∈ d.children) : ∃ piece, encodeAt (depth + 1) e = .ok piece := by
  cases d with
  | list items =>
    obtain ⟨_, _, _, hcontents, _⟩ := encodeAt_list_eq_ok.1 h
    exact (encodeItems_eq_ok.1 hcontents).exists_piece he
  | struct fields =>
    obtain ⟨_, _, _, hcontents, _⟩ := encodeAt_struct_eq_ok.1 h
    exact (encodeItems_eq_ok.1 hcontents).exists_piece he
  | dict entries =>
    obtain ⟨_, _, _, hcontents, _⟩ := encodeAt_dict_eq_ok.1 h
    obtain ⟨entry, hentry, he⟩ := List.mem_flatMap.1 he
    obtain ⟨_, key, value, hkey, hvalue, _⟩ := (encodeEntries_eq_ok.1 hcontents).exists_piece hentry
    have he : e = entry.1 ∨ e = entry.2 := by simpa using he
    rcases he with rfl | rfl
    · exact ⟨key, hkey⟩
    · exact ⟨value, hvalue⟩
  | _ => cases he

/-- No object of the host is written. -/
theorem isPlain_of_encodeAt {d : Datum} (h : encodeAt depth d = .ok bytes) :
    d.Everywhere IsPlain := by
  induction d using childInduction generalizing depth bytes with
  | step d ih =>
    refine everywhere_iff.2 ⟨?_, fun e he => ?_⟩
    · cases d with
      | extension object => exact encodeAt_extension_ne_ok h
      | _ => trivial
    · obtain ⟨piece, hpiece⟩ := encodeAt_child h he
      exact ih e he hpiece

end Datum

end EventScript
