import EventScript.Proofs.Codec.Rereading
import EventScript.Proofs.Datum.Alike
import EventScript.Proofs.RichText.Canonical
import EventScript.Proofs.RichText.Size

/-!
What comes back unchanged. Putting a datum together anew joins the segments of texts and the entries
of dicts; afterwards there is nothing left to join.
-/
namespace EventScript

theorem Segment.reread_eq_self {s : Segment} (h : s.color ≠ some 0xffffffff) : s.reread = s := by
  obtain ⟨content, _ | color⟩ := s
  · rfl
  · have hne : color ≠ 0xffffffff := fun hc => h (congrArg some hc)
    simp [reread, hne]

theorem Segment.color_reread_ne (s : Segment) : s.reread.color ≠ some 0xffffffff := by
  obtain ⟨content, _ | color⟩ := s
  · exact nofun
  · rw [reread, Option.map_some, ne_eq, Option.some.injEq]
    split
    · decide
    · assumption

/-- No segment has the last color. -/
def RichText.SparesLastColor (t : RichText) : Prop :=
  ∀ s ∈ t.segments, s.color ≠ some 0xffffffff

namespace Datum

/-- What is put together anew as it was: a text in canonical form without the last color, a dict
that holds no key twice. -/
def Faithful : Datum → Prop
  | text t => t.Canonical ∧ t.SparesLastColor
  | dict entries => KeysDiffer Alike entries
  | extension _ => False
  | _ => True

theorem Faithful.isPlain {d : Datum} (h : d.Faithful) : d.IsPlain := by
  cases d <;> first | exact trivial | exact h.elim

theorem Faithful.hasDistinctKeys {d : Datum} (h : d.Faithful) : d.HasDistinctKeys := by
  cases d <;> first | exact trivial | exact h

theorem Faithful.sparesLastColor {d : Datum} (h : d.Faithful) :
    d.TextHas RichText.SparesLastColor := by
  cases d <;> first | exact trivial | exact h.2

theorem everywhere_faithful {d : Datum} (hplain : d.Everywhere IsPlain)
    (hkeys : d.Everywhere HasDistinctKeys)
    (htexts : d.Everywhere (TextHas fun t => t.Canonical ∧ t.SparesLastColor)) :
    d.Everywhere Faithful := fun e he => by
  cases e with
  | text t => exact htexts _ he
  | dict entries => exact hkeys _ he
  | extension object => exact hplain _ he
  | _ => trivial

theorem same_iff_alike_of_faithful {d e : Datum} (hd : d.Everywhere Faithful)
    (he : e.Everywhere Faithful) : d.same e = true ↔ d.Alike e :=
  same_iff_alike (hd.imp fun _ h => h.isPlain) (hd.imp fun _ h => h.hasDistinctKeys)
    (he.imp fun _ h => h.hasDistinctKeys)

/-! ### Dicts put together anew -/

theorem length_putEntry_le (k v : Datum) (es : List (Datum × Datum)) :
    (putEntry k v es).length ≤ es.length + 1 := by
  induction es with
  | nil => simp [putEntry]
  | cons e es ih =>
    simp only [putEntry]
    split
    · simp
    · simpa using ih

theorem forall_putEntry {P Q : Datum → Prop} {k v : Datum} {es : List (Datum × Datum)}
    (hk : P k) (hv : Q v) (h : ∀ e ∈ es, P e.1 ∧ Q e.2) :
    ∀ e ∈ putEntry k v es, P e.1 ∧ Q e.2 := by
  induction es with
  | nil => simpa [putEntry] using ⟨hk, hv⟩
  | cons e es ih =>
    obtain ⟨he, hes⟩ := List.forall_mem_cons.1 h
    simp only [putEntry]
    split
    · exact List.forall_mem_cons.2 ⟨⟨he.1, hv⟩, hes⟩
    · exact List.forall_mem_cons.2 ⟨he, ih hes⟩

/-- No key is put in that is there already. -/
theorem pairwise_putEntry {k v : Datum} {es : List (Datum × Datum)}
    (h : es.Pairwise fun e f => f.1.same e.1 = false) :
    (putEntry k v es).Pairwise fun e f => f.1.same e.1 = false := by
  induction es with
  | nil => simp [putEntry]
  | cons e es ih =>
    obtain ⟨he, hes⟩ := List.pairwise_cons.1 h
    simp only [putEntry]
    split
    · exact List.pairwise_cons.2 ⟨he, hes⟩
    · rename_i hk
      have hlast : k.same e.1 = false := by simpa using hk
      have hrest := forall_putEntry (P := fun k => k.same e.1 = false) (Q := fun _ => True)
        (v := v) hlast trivial fun f hf => ⟨he f hf, trivial⟩
      exact List.pairwise_cons.2 ⟨fun f hf => (hrest f hf).1, ih hes⟩

/-- The entries of a dict that is put together from these. -/
def gather (es : List (Datum × Datum)) : List (Datum × Datum) :=
  es.foldl (fun es e => putEntry e.1 e.2 es) []

theorem ofEntries_eq (es : List (Datum × Datum)) : ofEntries es = .dict (gather es) := rfl

theorem length_gather_le (es : List (Datum × Datum)) : (gather es).length ≤ es.length := by
  have := foldl_measure_le List.length (fun es e => length_putEntry_le e.1 e.2 es) es []
  rwa [List.length_nil, Nat.zero_add] at this

theorem forall_gather {P : Datum → Prop} {es : List (Datum × Datum)}
    (h : ∀ e ∈ es, P e.1 ∧ P e.2) : ∀ e ∈ gather es, P e.1 ∧ P e.2 :=
  List.foldlRecOn (motive := fun fs : List (Datum × Datum) => ∀ e ∈ fs, P e.1 ∧ P e.2) es _
    (by simp) fun _ hfs e he => forall_putEntry (h e he).1 (h e he).2 hfs

theorem pairwise_gather (es : List (Datum × Datum)) :
    (gather es).Pairwise fun e f => f.1.same e.1 = false :=
  List.foldlRecOn es _ .nil fun _ hfs _ _ => pairwise_putEntry hfs

theorem putEntry_eq_append {es : List (Datum × Datum)} {k v : Datum}
    (h : ∀ e ∈ es, k.same e.1 = false) : putEntry k v es = es ++ [(k, v)] := by
  induction es with
  | nil => rfl
  | cons e es ih =>
    have h := List.forall_mem_cons.1 h
    simp [putEntry, h.1, ih h.2]

theorem gather_eq_self {es : List (Datum × Datum)}
    (h : es.Pairwise fun e f => f.1.same e.1 = false) : gather es = es :=
  foldl_eq_of_pairwise id (fun _ _ => putEntry_eq_append) h

theorem ofEntries_eq_dict {es : List (Datum × Datum)}
    (h : ∀ e ∈ es, e.1.Everywhere Faithful ∧ e.2.Everywhere Faithful) (hes : KeysDiffer Alike es) :
    ofEntries es = .dict es := by
  have hpairs : es.Pairwise fun e f => f.1.same e.1 = false := by
    refine hes.imp_of_mem fun {e f} he hf hne => ?_
    rw [Bool.eq_false_iff, ne_eq, same_iff_alike_of_faithful (h f hf).1 (h e he).1]
    exact fun halike => hne halike.symm
  rw [ofEntries_eq, gather_eq_self hpairs]

/-- The keys of a gathered dict differ. -/
theorem keysDiffer_gather {es : List (Datum × Datum)}
    (h : ∀ e ∈ es, e.1.Everywhere Faithful ∧ e.2.Everywhere Faithful) :
    KeysDiffer Alike (gather es) := by
  have hes := forall_gather h
  refine (pairwise_gather es).imp_of_mem fun {e f} he hf hne halike => ?_
  rw [(same_iff_alike_of_faithful (hes f hf).1 (hes e he).1).2 halike.symm] at hne
  cases hne

/-! ### Data put together anew -/

theorem faithful_text_ofSegments {ss : List Segment} (h : ∀ s ∈ ss, s.color ≠ some 0xffffffff) :
    (text (.ofSegments ss)).Faithful :=
  ⟨RichText.canonical_ofSegments ss,
    RichText.color_of_mem_ofSegments (P := (· ≠ some 0xffffffff)) h⟩

/-- What comes back is put together for good. -/
theorem faithful_reread {d : Datum} (h : d.Everywhere IsPlain) : d.reread.Everywhere Faithful := by
  induction d with
  | list items ih =>
    have hitems := (everywhere_list.1 h).2
    rw [reread, rereadItems_eq]
    exact everywhere_list.2 ⟨trivial, List.forall_mem_map.2 fun d hd => ih d hd (hitems d hd)⟩
  | struct fields ih =>
    have hfields := (everywhere_struct.1 h).2
    rw [reread, rereadItems_eq]
    exact everywhere_struct.2 ⟨trivial, List.forall_mem_map.2 fun d hd => ih d hd (hfields d hd)⟩
  | dict entries ih =>
    have hentries := (everywhere_dict.1 h).2
    have hes : ∀ e ∈ entries.map fun e => (e.1.reread, e.2.reread),
        e.1.Everywhere Faithful ∧ e.2.Everywhere Faithful := List.forall_mem_map.2 fun e he =>
      ⟨(ih e he).1 (hentries e he).1, (ih e he).2 (hentries e he).2⟩
    rw [reread, rereadEntries_eq, ofEntries_eq]
    exact everywhere_dict.2 ⟨keysDiffer_gather hes, forall_gather hes⟩
  | text t =>
    refine everywhere_of_children_nil (faithful_text_ofSegments ?_) rfl
    exact List.forall_mem_map.2 fun s _ => s.color_reread_ne
  | extension object => exact h.self.elim
  | _ => exact everywhere_of_children_nil trivial rfl

theorem reread_eq_self {d : Datum} (h : d.Everywhere Faithful) : d.reread = d := by
  induction d with
  | list items ih =>
    have hitems := (everywhere_list.1 h).2
    have hmap : items.map reread = items.map id :=
      List.map_congr_left fun d hd => ih d hd (hitems d hd)
    rw [reread, rereadItems_eq, hmap, List.map_id]
  | struct fields ih =>
    have hfields := (everywhere_struct.1 h).2
    have hmap : fields.map reread = fields.map id :=
      List.map_congr_left fun d hd => ih d hd (hfields d hd)
    rw [reread, rereadItems_eq, hmap, List.map_id]
  | dict entries ih =>
    obtain ⟨hkeys, hentries⟩ := everywhere_dict.1 h
    have hmap : (entries.map fun e => (e.1.reread, e.2.reread)) = entries.map id :=
      List.map_congr_left fun e he =>
        Prod.ext ((ih e he).1 (hentries e he).1) ((ih e he).2 (hentries e he).2)
    rw [reread, rereadEntries_eq, hmap, List.map_id, ofEntries_eq_dict hentries hkeys]
  | text t =>
    obtain ⟨hcanonical, hcolors⟩ := h.self
    have hmap : t.segments.map Segment.reread = t.segments.map id :=
      List.map_congr_left fun s hs => Segment.reread_eq_self (hcolors s hs)
    rw [reread, RichText.reread, hmap, List.map_id, hcanonical.ofSegments_segments]
  | _ => rfl

end Datum

end EventScript
