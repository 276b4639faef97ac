import EventScript.Proofs.Datum.Alike
import EventScript.Proofs.Heap.Containment

/-!
When values are the same. In a heap where no container holds itself, values whose dicts hold no key
twice are the same just when their data are alike.
-/
namespace EventScript

theorem isEqv_eq_true_iff {α : Type} {xs ys : Array α} {eq : α → α → Bool} :
    xs.isEqv ys eq = true ↔ List.Forall₂ (fun x y => eq x y = true) xs.toList ys.toList := by
  rw [Array.isEqv_iff_rel, List.forall₂_iff_get]
  simp only [List.get_eq_getElem, Array.getElem_toList, Array.length_toList]
  exact ⟨fun ⟨hsize, h⟩ => ⟨hsize, fun i hi _ => h i hi⟩,
    fun ⟨hsize, h⟩ => ⟨hsize, fun i hi => h i hi (hsize ▸ hi)⟩⟩

namespace Heap

open Datum

variable {h : Heap} {v w : Value} {n : Nat}

/-! ### Putting entries with different keys -/

theorem putEntry_eq_push {eq : Value → Value → Bool} {es : Array (Value × Value)} {k v : Value}
    (hk : ∀ e ∈ es, eq e.1 k = false) : putEntry eq es k v = es.push (k, v) := by
  have hnone : es.findIdx? (fun e => eq e.1 k) = none := by
    rw [Array.findIdx?_eq_none_iff]
    exact hk
  rw [putEntry, hnone]

theorem putEntries_eq_self {eq : Value → Value → Bool} {es : Array (Value × Value)}
    (h : es.toList.Pairwise fun e f => eq e.1 f.1 = false) : putEntries eq es = es := by
  rw [putEntries, ← Array.foldl_toList]
  exact foldl_eq_of_pairwise List.toArray
    (fun es e he => (putEntry_eq_push (by simpa using he)).trans (List.push_toArray es e)) h

section

variable {eq : Value → Value → Bool} {D : Value → Datum} {P : Value → Prop}
  {es fs : Array (Value × Value)}

/-- The data of entries. -/
def entriesOf (D : Value → Datum) (es : Array (Value × Value)) : List (Datum × Datum) :=
  es.toList.map fun e => (D e.1, D e.2)

theorem putEntries_of_keysDiffer (heq : ∀ v w, P v → P w → (eq v w = true ↔ (D v).Alike (D w)))
    (hes : ∀ e ∈ es.toList, P e.1 ∧ P e.2) (hkeys : KeysDiffer Alike (entriesOf D es)) :
    putEntries eq es = es := by
  refine putEntries_eq_self ((List.pairwise_map.1 hkeys).imp_of_mem fun {e f} he hf hne => ?_)
  rw [Bool.eq_false_iff, ne_eq, heq _ _ (hes e he).1 (hes f hf).1]
  exact hne

theorem sameEntries_eq : sameEntries eq es fs =
    ((putEntries eq es).size = (putEntries eq fs).size && (putEntries eq es).all fun e =>
      ((putEntries eq fs).find? fun f => eq f.1 e.1).any fun f => eq e.2 f.2) := by
  rw [sameEntries]
  congr 2
  funext ⟨k, v⟩
  cases hfind : (putEntries eq fs).find? fun f => eq f.1 k <;> simp [hfind]

/-- Dicts with the same entries have data that are alike, if equality means that of what they
hold. -/
theorem sameEntries_iff (heq : ∀ v w, P v → P w → (eq v w = true ↔ (D v).Alike (D w)))
    (hes : ∀ e ∈ es.toList, P e.1 ∧ P e.2) (hfs : ∀ f ∈ fs.toList, P f.1 ∧ P f.2)
    (hkeys : KeysDiffer Alike (entriesOf D es)) (hkeys' : KeysDiffer Alike (entriesOf D fs)) :
    sameEntries eq es fs = true ↔ (dict (entriesOf D es)).Alike (dict (entriesOf D fs)) := by
  have hequiv : Equivalence fun v w => (D v).Alike (D w) := ⟨fun v => .refl (D v), .symm, .trans⟩
  rw [sameEntries_eq, putEntries_of_keysDiffer heq hes hkeys,
    putEntries_of_keysDiffer heq hfs hkeys', alike_dict_iff,
    ← exists_perm_iff equivalence_alike hkeys]
  simp only [entriesOf, Bool.and_eq_true, decide_eq_true_iff, List.length_map, Array.length_toList,
    List.mem_map, forall_exists_index, and_imp, forall_apply_eq_imp_iff₂,
    exists_exists_and_eq_and, ← Array.all_toList, List.all_eq_true, ← Array.find?_toList]
  refine and_congr_right fun _ => forall₂_congr fun e he => ?_
  obtain ⟨hk, hv⟩ := hes e he
  have hfind := find?_any_iff (fun v => eq v e.1) (eq e.2) hequiv (List.pairwise_map.1 hkeys')
    (k := e.1) fun f hf => by
      rw [heq _ _ (hfs f hf).1 hk]
      exact ⟨.symm, .symm⟩
  rw [hfind]
  exact exists_congr fun f => and_congr_right fun hf => and_congr_right fun _ =>
    heq _ _ hv (hfs f hf).2

/-- Containers with the same items have data that are alike item by item. -/
theorem isEqv_iff {xs ys : Array Value}
    (heq : ∀ v w, P v → P w → (eq v w = true ↔ (D v).Alike (D w))) (hxs : ∀ v ∈ xs.toList, P v)
    (hys : ∀ w ∈ ys.toList, P w) :
    xs.isEqv ys eq = true ↔ List.Forall₂ Alike (xs.toList.map D) (ys.toList.map D) := by
  rw [isEqv_eq_true_iff, List.forall₂_map_left_iff, List.forall₂_map_right_iff]
  exact ⟨fun h => forall₂_imp_of_mem h fun v hv w hw => (heq v w (hxs v hv) (hys w hw)).1,
    fun h => forall₂_imp_of_mem h fun v hv w hw => (heq v w (hxs v hv) (hys w hw)).2⟩

end

theorem sameTo_of_ref?_eq_none (hv : v.ref? = none) : h.sameTo n v w = true ↔ v = w := by
  cases n with
  | zero => rw [sameTo, decide_eq_true_iff]
  | succ n => cases v <;> cases hv <;> simp [sameTo]

theorem alike_of_ref?_eq_none (hv : v.ref? = none) :
    (h.datumTo n v).Alike (h.datumTo n w) ↔ v = w := by
  constructor
  · intro halike
    cases v <;> cases hv <;> cases n <;> cases w <;> cases halike <;> rfl
  · rintro rfl
    exact .refl _

/-- Equality down to a depth that both values fit in. -/
theorem sameTo_iff (hv : h.FitsIn n v) (hw : h.FitsIn n w)
    (hdv : (h.datumTo n v).Everywhere HasDistinctKeys)
    (hdw : (h.datumTo n w).Everywhere HasDistinctKeys) :
    h.sameTo n v w = true ↔ (h.datumTo n v).Alike (h.datumTo n w) := by
  induction n generalizing v w with
  | zero => rw [sameTo_of_ref?_eq_none hv, alike_of_ref?_eq_none hv]
  | succ n ih =>
    -- The same handle is equal to itself without a look inside.
    have hself {b : Bool} (hb : b = true ↔ (h.datumTo (n + 1) v).Alike (h.datumTo (n + 1) w)) :
        (decide (v = w) || b) = true ↔ (h.datumTo (n + 1) v).Alike (h.datumTo (n + 1) w) := by
      rw [Bool.or_eq_true, decide_eq_true_iff, hb, or_iff_right_iff_imp]
      rintro rfl
      exact .refl _
    have heq (v w : Value) (hv : h.FitsIn n v ∧ (h.datumTo n v).Everywhere HasDistinctKeys)
        (hw : h.FitsIn n w ∧ (h.datumTo n w).Everywhere HasDistinctKeys) :
        h.sameTo n v w = true ↔ (h.datumTo n v).Alike (h.datumTo n w) :=
      ih hv.1 hw.1 hv.2 hw.2
    have hinside {v : Value} (hv : h.FitsIn (n + 1) v)
        (hdv : (h.datumTo (n + 1) v).Everywhere HasDistinctKeys) :
        ∀ w ∈ h.inside v, h.FitsIn n w ∧ (h.datumTo n w).Everywhere HasDistinctKeys :=
      fun w hw => ⟨hv w hw, hdv.child (children_datumTo h n v ▸ List.mem_map_of_mem hw)⟩
    cases v with
    | list r =>
      cases w with
      | list s =>
        refine hself ((isEqv_iff heq (hinside hv hdv) (hinside hw hdw)).trans ?_)
        exact ⟨.list, fun | .list h => h⟩
      | _ => exact ⟨by simp [sameTo], nofun⟩
    | struct r =>
      cases w with
      | struct s =>
        refine hself ((isEqv_iff heq (hinside hv hdv) (hinside hw hdw)).trans ?_)
        exact ⟨.struct, fun | .struct h => h⟩
      | _ => exact ⟨by simp [sameTo], nofun⟩
    | dict r =>
      cases w with
      | dict s =>
        exact hself (sameEntries_iff heq (forall_entries (hinside hv hdv))
          (forall_entries (hinside hw hdw)) (everywhere_dict.1 hdv).1 (everywhere_dict.1 hdw).1)
      | _ => exact ⟨by simp [sameTo], nofun⟩
    | _ => rw [sameTo_of_ref?_eq_none rfl, alike_of_ref?_eq_none rfl]

/-- Values are the same just when their data are alike. -/
theorem Acyclic.same_iff (ha : h.Acyclic) (hv : (h.datum v).Everywhere HasDistinctKeys)
    (hw : (h.datum w).Everywhere HasDistinctKeys) :
    h.same v w = true ↔ (h.datum v).Alike (h.datum w) :=
  sameTo_iff (ha.fitsIn v) (ha.fitsIn w) hv hw

/-- No dict within the value holds a key twice. -/
def KeysDifferWithin (h : Heap) (v : Value) : Prop :=
  ∀ r, h.Within v (.dict r) → (h.entries r).toList.Pairwise fun e f => h.same e.1 f.1 = false

theorem Acyclic.keysDiffer_iff (ha : h.Acyclic) {es : List (Value × Value)}
    (hes : ∀ e ∈ es, (h.datum e.1).Everywhere HasDistinctKeys) :
    KeysDiffer Alike (es.map fun e => (h.datum e.1, h.datum e.2)) ↔
      es.Pairwise fun e f => h.same e.1 f.1 = false := by
  rw [KeysDiffer, List.pairwise_map]
  refine List.Pairwise.iff_of_mem fun {e f} he hf => ?_
  rw [← ha.same_iff (hes e he) (hes f hf), Bool.not_eq_true]

/-- Keys differ within a value just if they do everywhere in its datum. -/
theorem Acyclic.hasDistinctKeys_iff (ha : h.Acyclic) :
    (h.datum v).Everywhere HasDistinctKeys ↔ h.KeysDifferWithin v := by
  constructor
  · intro hv r hr
    have hdata := (ha.everywhere_datum_iff.1 hv)
    have hdict := hdata _ hr
    rw [ha.datum_dict] at hdict
    refine (ha.keysDiffer_iff fun e he => ha.everywhere_datum_iff.2 fun w hw => ?_).1 hdict
    exact hdata w (hr.trans (.head (mem_inside_dict he).1 hw))
  · intro hv
    induction v using ha.induction with
    | step v ih =>
      have hinside : ∀ w ∈ h.inside v, (h.datum w).Everywhere HasDistinctKeys :=
        fun w hw => ih w hw fun r hr => hv r (.head hw hr)
      refine everywhere_iff.2 ⟨?_, fun d hd => ?_⟩
      · cases v with
        | dict r =>
          rw [ha.datum_dict]
          exact (ha.keysDiffer_iff fun e he => hinside _ (mem_inside_dict he).1).2 (hv r .refl)
        | list r => rw [ha.datum_list]; trivial
        | struct r => rw [ha.datum_struct]; trivial
        | _ => trivial
      · rw [ha.children_datum] at hd
        obtain ⟨w, hw, rfl⟩ := List.mem_map.1 hd
        exact hinside w hw

/-- The texts within a value are those everywhere in its datum. -/
theorem Acyclic.textHas_iff {P : RichText → Prop} (ha : h.Acyclic) :
    (h.datum v).Everywhere (TextHas P) ↔ ∀ t, h.Within v (.text t) → P t := by
  rw [ha.everywhere_datum_iff]
  constructor
  · exact fun hv t ht => hv _ ht
  · intro hv w hw
    cases w with
    | text t => exact hv t hw
    | list r => rw [ha.datum_list]; trivial
    | struct r => rw [ha.datum_struct]; trivial
    | dict r => rw [ha.datum_dict]; trivial
    | _ => trivial

end Heap

end EventScript
