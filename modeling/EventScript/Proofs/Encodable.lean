import EventScript.Proofs.Codec.Faults
import EventScript.Proofs.Codec.Walking
import EventScript.Proofs.Heap.Changing
import Mathlib

/-!
Which values can be written: those in which nothing lies too deep, is an object of the host or is
too long. Of other values the first fault on the visits is reported, and in neither case does the
heap change.
-/
namespace EventScript.Heap

open Wire

variable {h : Heap} {v w : Value} {n : Nat} {e : CodecError}

/-- Nothing keeps a value from being written inside `n` containers, except for what it holds. -/
structure Writable (h : Heap) (n : Nat) (w : Value) : Prop where
  depth : n ≤ 512
  object : ∀ object, w ≠ .extension object
  lengths : ∀ length ∈ h.lengths w, length < 2 ^ 32

/-- What is wrong with a value inside `n` containers: first of all its place, at last the first of
its lengths that is too large. -/
inductive Fault (h : Heap) (n : Nat) (w : Value) : CodecError → Prop
  | tooDeep (hn : n = 513) : Fault h n w .tooDeep
  | unencodable {object : HostObject} (hn : n ≤ 512) (hw : w = .extension object) :
    Fault h n w (.unencodable object.typeName)
  | lengthOverflow {fitting others : List Nat} {length : Nat} (hn : n ≤ 512)
    (hlengths : h.lengths w = fitting ++ length :: others)
    (hfitting : ∀ m ∈ fitting, m < 2 ^ 32) (hlength : 2 ^ 32 ≤ length) :
    Fault h n w (.lengthOverflow length)

/-- A value is written if all within it is writable. Otherwise the fault is reported that is visited
first, containers before what they hold and keys before their values. -/
structure EncodesExactly (h : Heap) (v : Value) : Prop where
  /-- Whether the walk ends with bytes or with an error, the heap is as it was. -/
  walks : (write v).run.run h = ((h.datum v).encode, h)
  succeeds : (∃ bytes, (h.datum v).encode = .ok bytes) ↔ ∀ n w, h.LiesIn n v w → h.Writable n w
  fails : ∀ e, (h.datum v).encode = .error e ↔ ∃ before n w after,
    h.visits 0 v = before ++ (n, w) :: after ∧
      (∀ visit ∈ before, h.Writable visit.1 visit.2) ∧ h.Fault n w e
  /-- The visits are to all within the value, each inside the containers around it. -/
  visited : ∀ n w, (n, w) ∈ h.visits 0 v ↔ h.LiesIn n v w
  /-- What a value holds is visited after it, from first to last. -/
  order : ∀ n w, h.visits n w = (n, w) :: (h.inside w).flatMap (h.visits (n + 1))

theorem fault?_eq_none_iff : (h.datum w).fault? n = none ↔ h.Writable n w := by
  by_cases hn : n > maxDepth
  · rw [Datum.fault?, if_pos hn]
    constructor
    · intro hnone
      cases hnone
    · exact fun hw => absurd hw.depth (Nat.not_le.2 hn)
  · rw [Datum.fault?, if_neg hn, Option.or_eq_none_iff, Option.map_eq_none_iff,
      Option.eq_none_iff_forall_ne_some, overflow?_eq_none_iff, lengths_datum]
    simp only [ne_eq, object?_datum]
    exact ⟨fun hw => ⟨Nat.not_lt.1 hn, hw.1, hw.2⟩, fun hw => ⟨hw.object, hw.lengths⟩⟩

theorem fault?_eq_some_iff (hn : n ≤ 513) :
    (h.datum w).fault? n = some e ↔ h.Fault n w e := by
  by_cases hdeep : n > maxDepth
  · rw [Datum.fault?, if_pos hdeep]
    simp only [maxDepth] at hdeep
    constructor
    · rintro ⟨⟩
      exact .tooDeep (by omega)
    · rintro (_ | _ | _)
      · rfl
      · omega
      · omega
  · rw [Datum.fault?, if_neg hdeep, Option.or_eq_some_iff, Option.map_eq_some_iff,
      overflow?_eq_some_iff, lengths_datum]
    simp only [maxDepth] at hdeep
    simp only [object?_datum]
    constructor
    · rintro (⟨object, hw, rfl⟩ | ⟨_, fitting, length, others, hlengths, hfitting, hlength, rfl⟩)
      · exact .unencodable (by omega) hw
      · exact .lengthOverflow (by omega) hlengths hfitting hlength
    · rintro (hn | ⟨_, hw⟩ | ⟨_, hlengths, hfitting, hlength⟩)
      · omega
      · exact .inl ⟨_, hw, rfl⟩
      · refine .inr ⟨?_, _, _, _, hlengths, hfitting, hlength, rfl⟩
        -- An object of the host has no lengths.
        rw [Option.map_eq_none_iff, Option.eq_none_iff_forall_ne_some]
        intro object hobject
        rw [object?_datum.1 hobject] at hlengths
        simp [lengths] at hlengths

/-- What is visited first of all that cannot be written lies inside 513 containers at most: a
container around it would have been too deep before it. -/
theorem Acyclic.depth_le_of_visits (ha : h.Acyclic) {before after : List (Nat × Value)}
    (hvisits : h.visits 0 v = before ++ (n, w) :: after)
    (hbefore : ∀ visit ∈ before, h.Writable visit.1 visit.2) : n ≤ 513 := by
  rcases n with _ | m
  · exact Nat.zero_le _
  · obtain ⟨u, hu⟩ := ha.exists_visit_around hvisits (Nat.zero_le m)
    have := (hbefore _ hu).depth
    omega

/-- In a heap without cycles the first fault on the visits decides about every value. -/
theorem encodesExactly (ha : h.Acyclic) (v : Value) : h.EncodesExactly v where
  walks := ha.answers_writeTo rfl
  succeeds := by
    rw [← failure?_eq_none, Datum.encode, ha.failure?_encodeAt, List.findSome?_eq_none_iff]
    simp only [Prod.forall, fault?_eq_none_iff, ha.mem_visits_iff, Nat.zero_add, exists_eq_left']
  fails e := by
    rw [← failure?_eq_some, Datum.encode, ha.failure?_encodeAt, List.findSome?_eq_some_iff]
    simp only [Prod.exists, fault?_eq_none_iff]
    refine exists_congr fun before => exists_congr fun n => exists_congr fun w =>
      exists_congr fun after => and_congr_right fun hvisits => ?_
    rw [and_comm]
    exact and_congr_right fun hbefore =>
      fault?_eq_some_iff (ha.depth_le_of_visits hvisits hbefore)
  visited n w := by simp [ha.mem_visits_iff]
  order := ha.visits_eq

/-- A dict that holds an object of the host in a list that is a key, and one as the value. -/
def labelled : Heap :=
  let (key, h) := Heap.empty.newList #[.extension ⟨0, "Texture", "a texture"⟩]
  (h.alloc (.dict #[(key, .extension ⟨1, "Sound", "a sound"⟩)])).2

theorem wellFormed_labelled : labelled.WellFormed := by
  refine (wellFormed_empty.alloc ?_).alloc ?_
  · simp [Cell.children, InRange, Value.ref?]
  · simp [Cell.children, InRange, Value.ref?, empty, Heap.alloc]

/-- It is the object inside the key that keeps the dict from being written. -/
theorem encodesExactly_labelled : labelled.Acyclic ∧ labelled.EncodesExactly (.dict 1) ∧
    (labelled.datum (.dict 1)).encode = .error (.unencodable "Texture") := by
  have ha := wellFormed_labelled.acyclic
  have hexactly := encodesExactly ha (.dict 1)
  have hvisits : labelled.visits 0 (.dict 1) =
      [(0, .dict 1), (1, .list 0)] ++ (2, .extension ⟨0, "Texture", "a texture"⟩) ::
        [(1, .extension ⟨1, "Sound", "a sound"⟩)] := by cbv
  refine ⟨ha, hexactly,
    (hexactly.fails _).2 ⟨_, 2, _, _, hvisits, ?_, .unencodable (by decide) rfl⟩⟩
  have hdict : labelled.lengths (.dict 1) = [1] := rfl
  have hlist : labelled.lengths (.list 0) = [1] := rfl
  exact List.forall_mem_cons.2 ⟨⟨by decide, by simp, by simp [hdict]⟩,
    List.forall_mem_singleton.2 ⟨by decide, by simp, by simp [hlist]⟩⟩

end EventScript.Heap
