import EventScript.Document
import EventScript.Proofs.Lists
import EventScript.Proofs.Outcome

/-!
What is written. The bytes of a container are its tag, its length and the pieces of its contents one
after the other; each lemma says when a kind of datum is written and as what.
-/
namespace EventScript

namespace Wire

variable {α : Type} {writes : α → List UInt8 → Prop} {a : α} {as : List α} {bytes : List UInt8}

/-- The bytes are pieces one after the other, one for each item. -/
def Sequence (writes : α → List UInt8 → Prop) (as : List α) (bytes : List UInt8) : Prop :=
  ∃ pieces, List.Forall₂ writes as pieces ∧ bytes = pieces.flatten

theorem sequence_nil_iff : Sequence writes [] bytes ↔ bytes = [] := by
  constructor
  · rintro ⟨_, ⟨⟩, rfl⟩
    rfl
  · rintro rfl
    exact ⟨[], .nil, rfl⟩

theorem sequence_cons_iff : Sequence writes (a :: as) bytes ↔
    ∃ first rest, writes a first ∧ Sequence writes as rest ∧ bytes = first ++ rest := by
  constructor
  · rintro ⟨_, _ | ⟨hfirst, hrest⟩, rfl⟩
    exact ⟨_, _, hfirst, ⟨_, hrest, rfl⟩, rfl⟩
  · rintro ⟨_, _, hfirst, ⟨_, hrest, rfl⟩, rfl⟩
    exact ⟨_, .cons hfirst hrest, rfl⟩

theorem Sequence.imp {writes' : α → List UInt8 → Prop} (h : Sequence writes as bytes)
    (hw : ∀ a ∈ as, ∀ piece, writes a piece → writes' a piece) : Sequence writes' as bytes := by
  obtain ⟨pieces, hpieces, rfl⟩ := h
  refine ⟨pieces, ?_, rfl⟩
  induction hpieces with
  | nil => exact .nil
  | cons hfirst _ ih =>
    have hw := List.forall_mem_cons.1 hw
    exact .cons (hw.1 _ hfirst) (ih hw.2)

theorem Sequence.exists_piece (h : Sequence writes as bytes) (ha : a ∈ as) :
    ∃ piece, writes a piece := by
  obtain ⟨_, hpieces, _⟩ := h
  obtain ⟨piece, _, hpiece⟩ := exists_right_of_forall₂ hpieces ha
  exact ⟨piece, hpiece⟩

theorem length_eq_ok {n : Nat} : length n = .ok bytes ↔ n < lengthLimit ∧ bytes = varint n := by
  by_cases hn : n < lengthLimit
  · rw [length, if_pos hn, Except.ok.injEq, and_iff_right hn, eq_comm]
  · rw [length, if_neg hn]
    exact ⟨nofun, fun h => absurd h.1 hn⟩

theorem string_eq_ok {s : String} : string s = .ok bytes ↔
    (utf8 s).length < lengthLimit ∧ bytes = varint (utf8 s).length ++ utf8 s := by
  simp only [string, map_eq_ok, length_eq_ok]
  constructor
  · rintro ⟨_, ⟨h, rfl⟩, rfl⟩
    exact ⟨h, rfl⟩
  · rintro ⟨h, rfl⟩
    exact ⟨_, ⟨h, rfl⟩, rfl⟩

/-- A segment's color, then its content. -/
def WritesSegment (s : Segment) (bytes : List UInt8) : Prop :=
  (utf8 s.content).length < lengthLimit ∧
    bytes = color s.color ++ (varint (utf8 s.content).length ++ utf8 s.content)

theorem segments_eq_ok {ss : List Segment} :
    segments ss = .ok bytes ↔ Sequence WritesSegment ss bytes := by
  induction ss generalizing bytes with
  | nil => simp [segments, sequence_nil_iff, eq_comm]
  | cons s ss ih =>
    simp only [segments, bind_eq_ok, string_eq_ok, ih, pure, Except.pure, Except.ok.injEq,
      sequence_cons_iff, WritesSegment]
    constructor
    · rintro ⟨_, ⟨h, rfl⟩, rest, hrest, rfl⟩
      exact ⟨_, rest, ⟨h, rfl⟩, hrest, by simp⟩
    · rintro ⟨_, rest, ⟨h, rfl⟩, hrest, rfl⟩
      exact ⟨_, ⟨h, rfl⟩, rest, hrest, by simp⟩

end Wire

namespace Datum

open Wire

variable {depth : Nat} {bytes : List UInt8}

-- The equations of the encoder are derived here once, not in each of the proofs below.
attribute [local simp] encodeAt

theorem encodeItems_eq_ok {items : List Datum} : encodeItems depth items = .ok bytes ↔
    Sequence (fun d piece => encodeAt depth d = .ok piece) items bytes := by
  induction items generalizing bytes with
  | nil => simp [encodeItems, sequence_nil_iff, eq_comm]
  | cons d ds ih =>
    simp only [encodeItems, bind_eq_ok, ih, pure, Except.pure, Except.ok.injEq,
      sequence_cons_iff]
    constructor
    · rintro ⟨first, hfirst, rest, hrest, rfl⟩
      exact ⟨first, rest, hfirst, hrest, rfl⟩
    · rintro ⟨first, rest, hfirst, hrest, rfl⟩
      exact ⟨first, hfirst, rest, hrest, rfl⟩

/-- An entry's key, then its value. -/
def WritesEntry (depth : Nat) (e : Datum × Datum) (bytes : List UInt8) : Prop :=
  ∃ key value, encodeAt depth e.1 = .ok key ∧ encodeAt depth e.2 = .ok value ∧
    bytes = key ++ value

theorem encodeEntries_eq_ok {entries : List (Datum × Datum)} :
    encodeEntries depth entries = .ok bytes ↔ Sequence (WritesEntry depth) entries bytes := by
  induction entries generalizing bytes with
  | nil => simp [encodeEntries, sequence_nil_iff, eq_comm]
  | cons e es ih =>
    obtain ⟨k, v⟩ := e
    simp only [encodeEntries, bind_eq_ok, ih, pure, Except.pure, Except.ok.injEq,
      sequence_cons_iff, WritesEntry]
    constructor
    · rintro ⟨key, hkey, value, hvalue, rest, hrest, rfl⟩
      exact ⟨_, rest, ⟨key, value, hkey, hvalue, rfl⟩, hrest, rfl⟩
    · rintro ⟨_, rest, ⟨key, value, hkey, hvalue, rfl⟩, hrest, rfl⟩
      exact ⟨key, hkey, value, hvalue, rest, hrest, rfl⟩

theorem depth_le_of_encodeAt {d : Datum} (h : encodeAt depth d = .ok bytes) : depth ≤ maxDepth := by
  rw [encodeAt.eq_def] at h
  split at h
  · cases h
  · omega

private theorem encodeAt_eq_ok {d : Datum} {write : Except CodecError (List UInt8)}
    (h : encodeAt depth d = if depth > maxDepth then .error .tooDeep else write) :
    encodeAt depth d = .ok bytes ↔ depth ≤ maxDepth ∧ write = .ok bytes := by
  rw [h]
  split
  · simp
    omega
  · simp
    omega

theorem encodeAt_number_eq_ok {n : Number} : encodeAt depth (.number n) = .ok bytes ↔
    depth ≤ maxDepth ∧ bytes = varint numberTag ++ Wire.number n := by
  rw [encodeAt_eq_ok (encodeAt.eq_def ..), Except.ok.injEq, eq_comm (a := bytes)]

theorem encodeAt_string_eq_ok {s : String} : encodeAt depth (.string s) = .ok bytes ↔
    depth ≤ maxDepth ∧ (utf8 s).length < lengthLimit ∧
      bytes = varint stringTag ++ (varint (utf8 s).length ++ utf8 s) := by
  rw [encodeAt_eq_ok (encodeAt.eq_def ..)]
  simp only [map_eq_ok, string_eq_ok]
  grind

theorem encodeAt_list_eq_ok {items : List Datum} : encodeAt depth (.list items) = .ok bytes ↔
    depth ≤ maxDepth ∧ items.length < lengthLimit ∧ ∃ contents,
      encodeItems (depth + 1) items = .ok contents ∧
      bytes = varint listTag ++ (varint items.length ++ contents) := by
  rw [encodeAt_eq_ok (encodeAt.eq_def ..)]
  simp only [bind_eq_ok, length_eq_ok, pure, Except.pure, Except.ok.injEq]
  grind

theorem encodeAt_dict_eq_ok {entries : List (Datum × Datum)} :
    encodeAt depth (.dict entries) = .ok bytes ↔
      depth ≤ maxDepth ∧ entries.length < lengthLimit ∧ ∃ contents,
        encodeEntries (depth + 1) entries = .ok contents ∧
        bytes = varint dictTag ++ (varint entries.length ++ contents) := by
  rw [encodeAt_eq_ok (encodeAt.eq_def ..)]
  simp only [bind_eq_ok, length_eq_ok, pure, Except.pure, Except.ok.injEq]
  grind

theorem encodeAt_struct_eq_ok {fields : List Datum} :
    encodeAt depth (.struct fields) = .ok bytes ↔
      depth ≤ maxDepth ∧ fields.length < lengthLimit ∧ ∃ contents,
        encodeItems (depth + 1) fields = .ok contents ∧
        bytes = varint structTag ++ (varint fields.length ++ contents) := by
  rw [encodeAt_eq_ok (encodeAt.eq_def ..)]
  simp only [bind_eq_ok, length_eq_ok, pure, Except.pure, Except.ok.injEq]
  grind

theorem encodeAt_vector_eq_ok {v : Vec3} : encodeAt depth (.vector v) = .ok bytes ↔
    depth ≤ maxDepth ∧ bytes = varint vectorTag ++
      (Wire.number v.x ++ (Wire.number v.y ++ Wire.number v.z)) := by
  rw [encodeAt_eq_ok (encodeAt.eq_def ..)]
  simp only [Except.ok.injEq, List.append_assoc, eq_comm (a := bytes)]

theorem encodeAt_uuid_eq_ok {u : Uuid} : encodeAt depth (.uuid u) = .ok bytes ↔
    depth ≤ maxDepth ∧ bytes = varint uuidTag ++ (word u.high ++ word u.low) := by
  rw [encodeAt_eq_ok (encodeAt.eq_def ..)]
  simp only [Except.ok.injEq, List.append_assoc, eq_comm (a := bytes)]

theorem encodeAt_text_eq_ok {t : RichText} : encodeAt depth (.text t) = .ok bytes ↔
    depth ≤ maxDepth ∧ t.segments.length < lengthLimit ∧ ∃ contents,
      Wire.segments t.segments = .ok contents ∧
      bytes = varint textTag ++ (varint t.segments.length ++ contents) := by
  rw [encodeAt_eq_ok (encodeAt.eq_def ..)]
  simp only [bind_eq_ok, length_eq_ok, pure, Except.pure, Except.ok.injEq]
  grind

theorem encodeAt_extension_ne_ok {object : HostObject} :
    encodeAt depth (.extension object) ≠ .ok bytes := by
  rw [ne_eq, encodeAt_eq_ok (encodeAt.eq_def ..)]
  simp

end Datum

namespace Document

open Wire

variable {bytes : List UInt8}

/-- A name, then its datum. -/
def WritesNamed (e : String × Datum) (bytes : List UInt8) : Prop :=
  ∃ value, (utf8 e.1).length < lengthLimit ∧ e.2.encode = .ok value ∧
    bytes = varint (utf8 e.1).length ++ utf8 e.1 ++ value

theorem encodeNamed_eq_ok {entries : List (String × Datum)} :
    encodeNamed entries = .ok bytes ↔ Sequence WritesNamed entries bytes := by
  induction entries generalizing bytes with
  | nil => simp [encodeNamed, sequence_nil_iff, eq_comm]
  | cons e es ih =>
    obtain ⟨name, d⟩ := e
    simp only [encodeNamed, bind_eq_ok, string_eq_ok, ih, pure, Except.pure, Except.ok.injEq,
      sequence_cons_iff, WritesNamed]
    constructor
    · rintro ⟨_, ⟨h, rfl⟩, value, hvalue, rest, hrest, rfl⟩
      exact ⟨_, rest, ⟨value, h, hvalue, rfl⟩, hrest, rfl⟩
    · rintro ⟨_, rest, ⟨value, h, hvalue, rfl⟩, hrest, rfl⟩
      exact ⟨_, ⟨h, rfl⟩, value, hvalue, rest, hrest, rfl⟩

theorem encode_eq_ok {doc : Document} : doc.encode = .ok bytes ↔
    doc.size < lengthLimit ∧ ∃ contents, Sequence WritesNamed doc.entries contents ∧
      bytes = varint doc.size ++ contents := by
  simp only [encode, bind_eq_ok, length_eq_ok, encodeNamed_eq_ok, pure, Except.pure,
    Except.ok.injEq]
  grind

end Document

end EventScript
