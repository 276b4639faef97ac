import EventScript.Document
import EventScript.Proofs.Heap.Preorder

/-!
What is not written. Writing fails with the first fault there is: a datum's own before those of what
it holds, which come in their order.
-/
namespace EventScript

section Failures

variable {α β γ ε : Type} {x : Except ε α}

/-- The error of what fails. -/
def failure? : Except ε α → Option ε
  | .ok _ => none
  | .error e => some e

theorem failure?_eq_some {e : ε} : failure? x = some e ↔ x = .error e := by
  cases x <;> simp [failure?]

theorem failure?_eq_none : failure? x = none ↔ ∃ a, x = .ok a := by
  cases x <;> simp [failure?]

theorem failure?_map (f : α → β) : failure? (x.map f) = failure? x := by
  cases x <;> rfl

/-- Of two steps the first one's error counts, if it fails. -/
theorem failure?_bind {f : α → Except ε β} {later : Option ε} (hf : ∀ a, failure? (f a) = later) :
    failure? (x >>= f) = (failure? x).or later := by
  cases x with
  | error e => rfl
  | ok a => exact hf a

theorem failure?_bind_pure (f : α → β) : failure? (x >>= fun a => pure (f a)) = failure? x := by
  cases x <;> rfl

end Failures

namespace Wire

/-- The first length that is too large to be written. -/
def overflow? (lengths : List Nat) : Option CodecError :=
  (lengths.find? (lengthLimit ≤ ·)).map .lengthOverflow

theorem overflow?_eq_none_iff {lengths : List Nat} :
    overflow? lengths = none ↔ ∀ n ∈ lengths, n < lengthLimit := by
  simp [overflow?]

theorem overflow?_eq_some_iff {lengths : List Nat} {e : CodecError} :
    overflow? lengths = some e ↔ ∃ fitting n others, lengths = fitting ++ n :: others ∧
      (∀ m ∈ fitting, m < lengthLimit) ∧ lengthLimit ≤ n ∧ e = .lengthOverflow n := by
  simp only [overflow?, Option.map_eq_some_iff, List.find?_eq_some_iff_append]
  constructor
  · rintro ⟨n, ⟨hn, fitting, others, rfl, hfitting⟩, rfl⟩
    exact ⟨fitting, n, others, rfl, by simpa using hfitting, by simpa using hn, rfl⟩
  · rintro ⟨fitting, n, others, rfl, hfitting, hn, rfl⟩
    exact ⟨n, ⟨by simpa using hn, fitting, others, rfl, by simpa using hfitting⟩, rfl⟩

theorem failure?_length (n : Nat) : failure? (length n) = overflow? [n] := by
  by_cases hn : n < lengthLimit
  · simp [length, overflow?, failure?, hn]
  · simp [length, overflow?, failure?, hn, Nat.not_lt.1 hn]

theorem overflow?_append (ns ms : List Nat) :
    overflow? (ns ++ ms) = (overflow? ns).or (overflow? ms) := by
  simp only [overflow?, List.find?_append, Option.map_or]

theorem failure?_string (s : String) : failure? (string s) = overflow? [(utf8 s).length] := by
  rw [string, failure?_map, failure?_length]

theorem failure?_segments (ss : List Segment) :
    failure? (segments ss) = overflow? (ss.map fun s => (utf8 s.content).length) := by
  induction ss with
  | nil => rfl
  | cons s ss ih =>
    have hrest (content : List UInt8) :
        failure? (do return color s.color ++ content ++ (← segments ss)) =
          overflow? (ss.map fun s => (utf8 s.content).length) := by
      rw [failure?_bind_pure, ih]
    rw [segments, failure?_bind hrest, failure?_string, ← overflow?_append]
    rfl

end Wire

namespace Datum

open Wire

variable {depth : Nat}

-- The equations of the encoder are derived here once, not in each of the proofs below.
attribute [local simp] encodeAt

/-- The lengths that are written of a datum, without what it holds. -/
def lengths : Datum → List Nat
  | string s => [(utf8 s).length]
  | list items => [items.length]
  | dict entries => [entries.length]
  | struct fields => [fields.length]
  | text t => t.segments.length :: t.segments.map fun s => (utf8 s.content).length
  | _ => []

/-- The object of the host that a datum is. -/
def object? : Datum → Option HostObject
  | extension object => some object
  | _ => none

/-- What is wrong with a datum itself inside `depth` containers: with its place before all else. -/
def fault? (depth : Nat) (d : Datum) : Option CodecError :=
  if depth > maxDepth then some .tooDeep
  else (d.object?.map (.unencodable ·.typeName)).or (overflow? d.lengths)

theorem failure?_encodeItems (ds : List Datum) :
    failure? (encodeItems depth ds) = ds.findSome? fun d => failure? (d.encodeAt depth) := by
  induction ds with
  | nil => rfl
  | cons d ds ih =>
    have hrest (first : List UInt8) :
        failure? (do return first ++ (← encodeItems depth ds)) =
          ds.findSome? fun d => failure? (d.encodeAt depth) := by
      rw [failure?_bind_pure, ih]
    rw [encodeItems, failure?_bind hrest, List.findSome?_cons]
    cases failure? (d.encodeAt depth) <;> rfl

theorem failure?_encodeEntries (es : List (Datum × Datum)) :
    failure? (encodeEntries depth es) =
      (es.flatMap fun (k, v) => [k, v]).findSome? fun d => failure? (d.encodeAt depth) := by
  induction es with
  | nil => rfl
  | cons e es ih =>
    obtain ⟨k, v⟩ := e
    have hrest (key value : List UInt8) :
        failure? (do return key ++ value ++ (← encodeEntries depth es)) =
          (es.flatMap fun (k, v) => [k, v]).findSome? fun d => failure? (d.encodeAt depth) := by
      rw [failure?_bind_pure, ih]
    rw [encodeEntries, failure?_bind fun key => failure?_bind (hrest key)]
    simp only [List.flatMap_cons, List.cons_append, List.nil_append, List.findSome?_cons]
    cases failure? (k.encodeAt depth) <;> cases failure? (v.encodeAt depth) <;> rfl

/-- A datum's own fault comes first, then those of what it holds. -/
theorem failure?_encodeAt (d : Datum) : failure? (d.encodeAt depth) =
    (d.fault? depth).or (d.children.findSome? fun c => failure? (c.encodeAt (depth + 1))) := by
  by_cases hdeep : depth > maxDepth
  · simp only [encodeAt.eq_def, fault?, if_pos hdeep, failure?, Option.some_or]
  · have counted (n : Nat) (tag : List UInt8) (contents : Except CodecError (List UInt8)) :
        failure? (do return tag ++ (← Wire.length n) ++ (← contents)) =
          (overflow? [n]).or (failure? contents) := by
      rw [failure?_bind fun _ => failure?_bind_pure .., failure?_length]
    rw [encodeAt.eq_def, fault?, if_neg hdeep, if_neg hdeep]
    cases d with
    | string s =>
      simp only [failure?_map, failure?_string]
      exact (Option.or_none ..).symm
    | list items => exact (counted ..).trans (congrArg _ (failure?_encodeItems items))
    | dict entries => exact (counted ..).trans (congrArg _ (failure?_encodeEntries entries))
    | struct fields => exact (counted ..).trans (congrArg _ (failure?_encodeItems fields))
    | text t =>
      refine (counted ..).trans ?_
      rw [failure?_segments, ← overflow?_append]
      exact (Option.or_none ..).symm
    | number | vector | uuid | extension => rfl

end Datum

namespace Heap

open Wire

variable {h : Heap} {v : Value} {depth : Nat} {object : HostObject}

/-- The lengths that are written of a value, without what it holds: of a string or a segment in
bytes, of a container or a text in items. -/
def lengths (h : Heap) : Value → List Nat
  | .string s => [(utf8 s).length]
  | .list r => [(h.items r).size]
  | .dict r => [(h.entries r).size]
  | .struct r => [(h.fields r).size]
  | .text t => t.segments.length :: t.segments.map fun s => (utf8 s.content).length
  | _ => []

theorem lengths_datum (h : Heap) (v : Value) : (h.datum v).lengths = h.lengths v := by
  cases v <;> simp [datum, Heap.depth, datumTo, Datum.lengths, lengths]

theorem object?_datum : (h.datum v).object? = some object ↔ v = .extension object := by
  cases v <;> simp [datum, Heap.depth, datumTo, Datum.object?]

/-- The fault that is reported is the first on the visits. -/
theorem Acyclic.failure?_encodeAt (ha : h.Acyclic) : failure? ((h.datum v).encodeAt depth) =
    (h.visits depth v).findSome? fun visit => (h.datum visit.2).fault? visit.1 := by
  induction v using ha.induction generalizing depth with
  | step v ih =>
    have hinside : ((h.inside v).map h.datum).findSome?
          (fun d => failure? (d.encodeAt (depth + 1))) =
        ((h.inside v).flatMap (h.visits (depth + 1))).findSome?
          fun visit => (h.datum visit.2).fault? visit.1 := by
      rw [List.findSome?_map, findSome?_flatMap, ← List.head?_filterMap, ← List.head?_filterMap]
      exact congrArg List.head? (List.filterMap_congr fun w hw => ih w hw)
    rw [Datum.failure?_encodeAt, ha.children_datum, hinside, ha.visits_eq, List.findSome?_cons]
    cases (h.datum v).fault? depth <;> rfl

end Heap

end EventScript
