import EventScript.Proofs.Codec.Bounded

/-!
Reading is bounded by the input, whatever counts stand in it. No more values are set out for than
there are bytes and one more, and the reader never leaves the input or goes back in it.
-/
namespace EventScript

open Attempt Datum

namespace Decoder

theorem shallow_ofEntries {levels : Nat} {es : List (Datum × Datum)}
    (h : ∀ e ∈ es, e.1.Shallow levels ∧ e.2.Shallow levels) :
    (ofEntries es).Shallow (levels + 1) := by
  rw [ofEntries_eq]
  exact shallow_succ (forall_mem_children_dict.2 (forall_gather h))

theorem reads_shallow (levels : Nat) : Reads (Shallow levels) (datumTo levels) := by
  induction levels with
  | zero => exact reads_fail _
  | succ levels inner =>
    have leaf {d : Datum} (hnil : d.children = []) :
        Reads (Shallow (levels + 1)) (pure d : Decoder Datum) :=
      reads_pure (shallow_succ (by simp [hnil]))
    rw [datumTo]
    refine reads_bind (reads_any _) fun tag _ => ?_
    split
    case h_1 | h_2 | h_7 => exact reads_bind (reads_any _) fun _ _ => leaf rfl
    case h_3 | h_5 =>
      exact reads_bind (reads_any _) fun _ _ => reads_bind (reads_many inner (by simp))
        fun _ hds => reads_pure (shallow_succ hds)
    case h_4 =>
      exact reads_bind (reads_any _) fun _ _ =>
        reads_bind (reads_many (reads_entry inner) (by simp)) fun _ hes =>
          reads_pure (shallow_ofEntries hes)
    case h_6 =>
      exact reads_bind (reads_any _) fun _ _ => reads_bind (reads_any _) fun _ _ =>
        reads_bind (reads_any _) fun _ _ => leaf rfl
    case h_8 =>
      exact reads_bind (reads_any _) fun _ _ => reads_bind (reads_any _) fun _ _ => leaf rfl
    case h_9 => exact reads_fail _

/-- What reading at a reader comes to, and what it sets out for on the way, is bounded by what there
is to read. -/
structure BoundedByInput (r : Reader) (outcome : Except CodecError Datum × Reader)
    (record : List Attempt) : Prop where
  /-- Not more values than there are bytes left, and one more. -/
  attempts : values record ≤ r.bytes.length + 1
  advances : r.Advances outcome.2
  /-- On the way the reader does not go back either. -/
  ascends : record.Pairwise fun a b => a.position ≤ b.position
  between : ∀ a ∈ record, r.position ≤ a.position ∧ a.position ≤ outcome.2.position
  /-- All that was read took its bytes, also entries that others of the same dict replaced and
  segments that were joined. -/
  consumes : ∀ d, outcome.1 = .ok d →
    r.position + values record + 2 * segments record ≤ outcome.2.position
  holds : ∀ d, outcome.1 = .ok d → d.nodes ≤ values record ∧ d.textSegments ≤ segments record
  depth : ∀ d, outcome.1 = .ok d → (∀ n e, LiesIn n d e → n ≤ 512) ∧
    ∀ n position, .value n position ∈ record → n ≤ 512
  reports : ∀ e position, outcome.1 = .error e → e.position? = some position →
    r.position ≤ position ∧ position ≤ r.position + r.bytes.length

/-- To put on record what is set out for changes nothing in what is read, and from any reader on both
are bounded by what is left to read. -/
theorem datum_boundedByInput (r : Reader) : (Recording.datum r).1 = datum.onReader r ∧
    BoundedByInput r (datum.onReader r) (Recording.datum r).2 := by
  have hrecords : (Recording.datum r).1 = datum.onReader r := Recording.records_datumTo _ r
  have hwithin := Recording.bounded_datumTo (Wire.maxDepth + 1) r
  change Recording.Within _ r (Recording.datum r) at hwithin
  generalize Recording.datum r = run at hrecords hwithin
  rw [← hrecords]
  have hstop := hwithin.advances.stop_eq
  simp only [Reader.stop] at hstop
  exact ⟨rfl, {
    attempts := by
      cases hrun : run.1.1 with
      | error e =>
        have := hwithin.fails e hrun
        omega
      | ok d =>
        have := hwithin.pays d hrun
        omega
    advances := hwithin.advances
    ascends := hwithin.ascends
    between := hwithin.between
    consumes := fun d hd => by
      have := hwithin.pays d hd
      omega
    holds := fun d hd => ⟨(hwithin.answers d hd).nodes, (hwithin.answers d hd).texts⟩
    depth := fun d hd =>
      ⟨fun n e he => Nat.le_of_lt_succ <|
        reads_shallow (Wire.maxDepth + 1) r d run.1.2 (hrecords ▸ Prod.ext hd rfl) n e he,
        (hwithin.answers d hd).depth⟩
    reports := hwithin.reports }⟩

-- A list of 2 ^ 32 - 1 items of which none is there: the list and one item were set out for.
example : ((Recording.datum ⟨[3, 255, 255, 255, 255, 15], 0⟩).2.map Attempt.position) = [0, 6] := by
  cbv

end Decoder

end EventScript
