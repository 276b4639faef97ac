import EventScript.Proofs.Codec.Careful
import EventScript.Proofs.Codec.Decoded
import EventScript.Proofs.Codec.Recording
import EventScript.Proofs.Datum.Totals

/-!
How much is set out for. Every value and every segment that was read took bytes of its own, and
where reading failed, at most one value that was set out for did not.
-/
namespace EventScript

open Attempt

/-- How many values were set out for. -/
def Attempt.values (record : List Attempt) : Nat := record.countP isValue

/-- How many segments were set out for. -/
def Attempt.segments (record : List Attempt) : Nat := record.countP isSegment

namespace Recording

variable {α β : Type} {q : Recording α} {p : Decoder α} {P P' : α → List Attempt → Prop}
  {Q : β → List Attempt → Prop}

/-- A run at a reader moves it forward over the positions that are put on record, in their order. If
it answers, it took a byte for each value and two for each segment; if it fails, a byte for each
value but one. -/
structure Within (P : α → List Attempt → Prop) (r : Reader)
    (run : (Except CodecError α × Reader) × List Attempt) : Prop where
  advances : r.Advances run.1.2
  ascends : run.2.Pairwise fun a b => a.position ≤ b.position
  between : ∀ a ∈ run.2, r.position ≤ a.position ∧ a.position ≤ run.1.2.position
  pays : ∀ a, run.1.1 = .ok a →
    values run.2 + 2 * segments run.2 + run.1.2.bytes.length ≤ r.bytes.length
  answers : ∀ a, run.1.1 = .ok a → P a run.2
  fails : ∀ e, run.1.1 = .error e → values run.2 + run.1.2.bytes.length ≤ r.bytes.length + 1
  reports : ∀ e position, run.1.1 = .error e → e.position? = some position →
    r.position ≤ position ∧ position ≤ r.stop

/-- Every run keeps within the input. -/
def Bounded (P : α → List Attempt → Prop) (q : Recording α) : Prop := ∀ r, Within P r (q r)

theorem Bounded.imp (hq : Bounded P q) (hP : ∀ a record, P a record → P' a record) :
    Bounded P' q := fun r =>
  { hq r with answers := fun a ha => hP a _ ((hq r).answers a ha) }

/-- A run of a decoder that keeps to its input, with what was set out for before it began. -/
theorem within_of_careful {r : Reader} {record : List Attempt} (hp : ∀ start, p.Careful start)
    (hpositions : ∀ a ∈ record, a.position = r.position) (hone : values record ≤ 1)
    (hread : ∀ {a r'}, p.onReader r = (.ok a, r') → P a record ∧
      values record + 2 * segments record + r'.bytes.length ≤ r.bytes.length) :
    Within P r (p.onReader r, record) :=
  have hadvances := (hp 0).advances r
  { advances := hadvances
    ascends := List.pairwise_of_forall_mem_list fun a ha b hb =>
      ((hpositions a ha).trans (hpositions b hb).symm).le
    between := fun a ha => by
      rw [hpositions a ha]
      exact ⟨Nat.le_refl _, hadvances.position_le⟩
    pays := fun a ha => (hread (Prod.ext ha rfl)).2
    answers := fun a ha => (hread (Prod.ext ha rfl)).1
    fails := fun _ _ => by
      have hlength := hadvances.length_le
      dsimp only
      omega
    reports := (hp r.position).reports r (Nat.le_refl _) }

/-- A decoder of which nothing is put on record. -/
theorem bounded_lift (hp : ∀ start, p.Careful start)
    (hread : ∀ {r a r'}, p.onReader r = (.ok a, r') → P a []) : Bounded P (liftM p) := fun r => by
  rw [lift_apply]
  refine within_of_careful hp (by simp) (Nat.zero_le 1) fun h => ⟨hread h, ?_⟩
  have hlength := ((hp 0).advances r).length_le
  rw [h] at hlength
  simpa [values, segments] using hlength

theorem bounded_pure {a : α} (ha : P a []) : Bounded P (pure a) := by
  refine bounded_lift (p := pure a) (fun _ => Decoder.careful_pure a) fun h => ?_
  obtain ⟨rfl, _⟩ := Decoder.pure_eq_ok.1 h
  exact ha

theorem bounded_fail {e : CodecError} (he : e.position? = none) :
    Bounded P (liftM (Decoder.fail e : Decoder α)) :=
  bounded_lift (fun _ => Decoder.careful_fail fun _ h => nomatch he.symm.trans h) nofun

/-- What is set out for takes bytes of its own, unless it fails at once. -/
theorem bounded_attempt {what : Nat → Attempt}
    (hwhat : ∀ position, (what position).position = position) (hp : ∀ start, p.Careful start)
    (hread : ∀ {r a r'}, p.onReader r = (.ok a, r') → P a [what r.position] ∧
      values [what r.position] + 2 * segments [what r.position] + r'.bytes.length ≤
        r.bytes.length) :
    Bounded P (attempt what >>= fun _ => liftM p) := fun r => by
  rw [attempt_bind_apply, lift_apply]
  exact within_of_careful hp (by simp [hwhat]) List.countP_le_length hread

theorem Within.error {e : CodecError} {r r' : Reader} {record : List Attempt}
    (hr : Within P r ((.error e, r'), record)) :
    Within Q r ((.error e, r'), record) where
  advances := hr.advances
  ascends := hr.ascends
  between := hr.between
  pays := nofun
  answers := nofun
  fails := fun _ _ => hr.fails e rfl
  reports := fun _ position h hposition => by
    cases h
    exact hr.reports _ position rfl hposition

theorem Within.append {a : α} {r r' : Reader} {record : List Attempt}
    {run : (Except CodecError β × Reader) × List Attempt}
    (hr : Within P r ((.ok a, r'), record))
    (hr' : Within (fun b more => Q b (record ++ more)) r' run) :
    Within Q r (run.1, record ++ run.2) :=
  have hpays : values record + 2 * segments record + r'.bytes.length ≤ r.bytes.length :=
    hr.pays a rfl
  have hforward : r.position ≤ r'.position := hr.advances.position_le
  have hforward' := hr'.advances.position_le
  { advances := hr.advances.trans hr'.advances
    ascends := List.pairwise_append.2 ⟨hr.ascends, hr'.ascends, fun a ha b hb =>
      (hr.between a ha).2.trans (hr'.between b hb).1⟩
    between := fun a ha => by
      rcases List.mem_append.1 ha with ha | ha
      · exact ⟨(hr.between a ha).1, (hr.between a ha).2.trans hforward'⟩
      · exact ⟨hforward.trans (hr'.between a ha).1, (hr'.between a ha).2⟩
    pays := fun b hb => by
      have := hr'.pays b hb
      simp only [values, segments, List.countP_append] at this hpays ⊢
      omega
    answers := hr'.answers
    fails := fun e he => by
      have := hr'.fails e he
      simp only [values, List.countP_append] at this hpays ⊢
      omega
    reports := fun e position h hposition => by
      have := hr'.reports e position h hposition
      rw [hr.advances.stop_eq] at this
      exact ⟨hforward.trans this.1, this.2⟩ }

theorem bounded_bind {f : α → Recording β} (hq : Bounded P q)
    (hf : ∀ a record, P a record → Bounded (fun b more => Q b (record ++ more)) (f a)) :
    Bounded Q (q >>= f) := fun r => by
  have hr := hq r
  rw [bind_apply]
  generalize q r = run at hr ⊢
  obtain ⟨⟨e | a, r'⟩, record⟩ := run
  · exact hr.error
  · exact hr.append (hf a record (hr.answers a rfl) r')

theorem bounded_lift_bind {f : α → Recording β} (hp : ∀ start, p.Careful start)
    (hf : ∀ a, Bounded Q (f a)) : Bounded Q (liftM p >>= f) := by
  have hlift : Bounded (fun _ record => record = []) (liftM p) := bounded_lift hp fun _ => rfl
  refine bounded_bind hlift fun a _ hnil => ?_
  rw [hnil]
  exact hf a

/-! ### Data -/

/-- So many values and segments were set out for, and no value too deep. -/
structure Counted (nodes texts : Nat) (record : List Attempt) : Prop where
  nodes : nodes ≤ values record
  texts : texts ≤ segments record
  depth : ∀ depth position, .value depth position ∈ record → depth ≤ Wire.maxDepth

theorem counted_nil : Counted 0 0 [] := ⟨Nat.zero_le _, Nat.zero_le _, nofun⟩

theorem Counted.append {n n' s s' : Nat} {record more : List Attempt} (h : Counted n s record)
    (h' : Counted n' s' more) : Counted (n + n') (s + s') (record ++ more) where
  nodes := by
    rw [values, List.countP_append]
    exact Nat.add_le_add h.nodes h'.nodes
  texts := by
    rw [segments, List.countP_append]
    exact Nat.add_le_add h.texts h'.texts
  depth depth position hmem := (List.mem_append.1 hmem).elim (h.depth _ _) (h'.depth _ _)

theorem counted_value {depth position : Nat} (hdepth : depth ≤ Wire.maxDepth) :
    Counted 1 0 [.value depth position] where
  nodes := Nat.le_refl _
  texts := Nat.le_refl _
  depth _ _ hmem := by
    cases List.mem_singleton.1 hmem
    exact hdepth

theorem Counted.mono {n n' s s' : Nat} {record : List Attempt} (h : Counted n s record)
    (hn : n' ≤ n) (hs : s' ≤ s) : Counted n' s' record :=
  ⟨hn.trans h.nodes, hs.trans h.texts, h.depth⟩

/-- Items count together. -/
theorem bounded_many {item : Recording α} {nodes texts : α → Nat}
    (hitem : Bounded (fun a => Counted (nodes a) (texts a)) item) (count : Nat) (read : List α) :
    Bounded (fun as record => ∃ more, as = read.reverse ++ more ∧
      Counted (more.map nodes).sum (more.map texts).sum record) (many item count read) := by
  induction count generalizing read with
  | zero => exact bounded_pure ⟨[], (List.append_nil _).symm, counted_nil⟩
  | succ count ih =>
    refine bounded_bind hitem fun a record ha => (ih (a :: read)).imp ?_
    rintro _ record' ⟨more, rfl, hmore⟩
    exact ⟨a :: more, by simp, ha.append hmore⟩

theorem bounded_segment : Bounded (fun _ => Counted 0 1) segment := by
  refine bounded_attempt (fun _ => rfl) (fun _ => Decoder.careful_segment) fun h => ?_
  obtain ⟨color, r₁, hcolor, h⟩ := Decoder.bind_eq_ok.1 h
  obtain ⟨content, r₂, hcontent, h⟩ := Decoder.bind_eq_ok.1 h
  obtain ⟨_, rfl⟩ := Decoder.pure_eq_ok.1 h
  obtain ⟨_, hfirst⟩ := Decoder.read_varint hcolor
  obtain ⟨_, hsecond⟩ := Decoder.read_string hcontent
  refine ⟨⟨Nat.zero_le _, Nat.le_refl _, by simp⟩, ?_⟩
  change 0 + 2 * 1 + _ ≤ _
  omega

theorem bounded_entry {item : Recording Datum} {nodes texts : Datum → Nat}
    (hitem : Bounded (fun d => Counted (nodes d) (texts d)) item) :
    Bounded (fun e => Counted (nodes e.1 + nodes e.2) (texts e.1 + texts e.2)) (entry item) :=
  bounded_bind hitem fun _ _ hkey => bounded_bind hitem fun _ _ hvalue => bounded_pure <| by
    rw [List.append_nil]
    exact hkey.append hvalue

/-- A number of items, and what is made of them. -/
theorem bounded_listed {item : Recording α} {nodes texts : α → Nat}
    (hitem : Bounded (fun a => Counted (nodes a) (texts a)) item) (of : List α → Datum) :
    Bounded (fun d record => ∃ as, d = of as ∧
        Counted (as.map nodes).sum (as.map texts).sum record)
      (do return of (← many item (← Decoder.varint) [])) := by
  refine bounded_lift_bind (fun _ => Decoder.careful_varint) fun count => ?_
  refine bounded_bind (bounded_many hitem count []) fun as record has => bounded_pure ?_
  obtain ⟨_, rfl, has⟩ := has
  rw [List.append_nil]
  exact ⟨_, rfl, has⟩

/-- Putting entries together in a dict adds nothing. -/
theorem sum_putEntry_le (weight : Datum → Nat) (k v : Datum) (es : List (Datum × Datum)) :
    ((Datum.putEntry k v es).map fun e => weight e.1 + weight e.2).sum ≤
      (es.map fun e => weight e.1 + weight e.2).sum + (weight k + weight v) := by
  induction es with
  | nil => simp [Datum.putEntry]
  | cons e es ih =>
    rw [Datum.putEntry]
    split
    · simp only [List.map_cons, List.sum_cons]
      omega
    · simp only [List.map_cons, List.sum_cons]
      omega

theorem sum_gather_le (weight : Datum → Nat) (es : List (Datum × Datum)) :
    ((Datum.gather es).map fun e => weight e.1 + weight e.2).sum ≤
      (es.map fun e => weight e.1 + weight e.2).sum := by
  have hfold (fs : List (Datum × Datum)) :
      ((es.foldl (fun fs e => Datum.putEntry e.1 e.2 fs) fs).map
          fun e => weight e.1 + weight e.2).sum ≤
        (fs.map fun e => weight e.1 + weight e.2).sum +
          (es.map fun e => weight e.1 + weight e.2).sum := by
    induction es generalizing fs with
    | nil => simp
    | cons e es ih =>
      have hstep := sum_putEntry_le weight e.1 e.2 fs
      have hrest := ih (Datum.putEntry e.1 e.2 fs)
      simp only [List.foldl_cons, List.map_cons, List.sum_cons]
      omega
  simpa [Datum.gather] using hfold []

theorem bounded_datumTo (levels : Nat) :
    Bounded (fun d => Counted d.nodes d.textSegments) (datumTo levels) := by
  induction levels with
  | zero =>
    exact bounded_attempt (fun _ => rfl) (fun _ => Decoder.careful_fail nofun) nofun
  | succ levels inner =>
    rw [datumTo, attempt_bind_bind]
    have hvalue : Bounded (fun _ => Counted 1 0)
        (attempt (.value (Wire.maxDepth - levels)) >>= fun _ => liftM Decoder.varint) := by
      refine bounded_attempt (fun _ => rfl) (fun _ => Decoder.careful_varint) fun h => ?_
      obtain ⟨_, hlength⟩ := Decoder.read_varint h
      refine ⟨counted_value (Nat.sub_le _ _), ?_⟩
      change 1 + 2 * 0 + _ ≤ _
      omega
    refine bounded_bind hvalue fun tag record hrecord => ?_
    have leaf {d : Datum} (hd : d.children = []) (hs : d.textSegments = 0) :
        Bounded (fun d more => Counted d.nodes d.textSegments (record ++ more)) (pure d) := by
      refine bounded_pure ?_
      rw [Datum.nodes, Datum.total_of_children_nil _ hd, hs, List.append_nil]
      exact hrecord
    have holds {d : Datum} {n s : Nat} {more : List Attempt} (hmore : Counted n s more)
        (hn : d.nodes ≤ 1 + n) (hs : d.textSegments ≤ s) :
        Counted d.nodes d.textSegments (record ++ more) :=
      (hrecord.append hmore).mono hn (hs.trans (Nat.le_add_left s 0))
    split
    · exact bounded_lift_bind (fun _ => Decoder.careful_number) fun _ =>
        leaf rfl (Datum.total_of_children_nil _ rfl)
    · exact bounded_lift_bind (fun _ => Decoder.careful_string) fun _ =>
        leaf rfl (Datum.total_of_children_nil _ rfl)
    · refine (bounded_listed inner .list).imp ?_
      rintro _ more ⟨ds, rfl, hds⟩
      exact holds hds (Datum.total_eq _ _).le ((Datum.total_eq _ _).trans (Nat.zero_add _)).le
    · refine (bounded_listed (bounded_entry inner) .ofEntries).imp ?_
      rintro _ more ⟨es, rfl, hes⟩
      rw [Datum.ofEntries_eq]
      refine holds hes ?_ ?_
      · exact (Datum.total_dict _ _).trans_le (Nat.add_le_add_left (sum_gather_le _ es) 1)
      · refine (Datum.total_dict _ _).trans_le ?_
        exact (Nat.zero_add _).trans_le (sum_gather_le _ es)
    · refine (bounded_listed inner .struct).imp ?_
      rintro _ more ⟨ds, rfl, hds⟩
      exact holds hds (Datum.total_eq _ _).le ((Datum.total_eq _ _).trans (Nat.zero_add _)).le
    · exact bounded_lift_bind (fun _ => Decoder.careful_number) fun _ =>
        bounded_lift_bind (fun _ => Decoder.careful_number) fun _ =>
          bounded_lift_bind (fun _ => Decoder.careful_number) fun _ =>
            leaf rfl (Datum.total_of_children_nil _ rfl)
    · exact bounded_lift_bind (fun _ => Decoder.careful_exactly 16) fun _ =>
        leaf rfl (Datum.total_of_children_nil _ rfl)
    · refine (bounded_listed bounded_segment fun ss => .text (.ofSegments ss)).imp ?_
      rintro _ more ⟨ss, rfl, hss⟩
      refine holds hss ((Datum.total_of_children_nil _ rfl).trans_le (Nat.le_add_right 1 _)) ?_
      refine (Datum.total_of_children_nil _ rfl).trans_le ?_
      rw [List.map_const', List.sum_replicate, Nat.nsmul_eq_mul, Nat.mul_one]
      exact RichText.length_ofSegments_le
    · exact bounded_fail rfl

end Recording

end EventScript
