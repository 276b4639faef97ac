import EventScript.Heap
import EventScript.Proofs.Datum.Tree
import Mathlib.Data.Finset.Card
import Mathlib.Data.Finset.Range

/-!
What lies in what. In a heap where no container holds itself every value is a finite tree, no deeper
than the heap has containers, and the datum of a value is made of the data of what it holds.
-/
namespace EventScript.Heap

open Relation

variable {h : Heap} {r s : Ref} {v w : Value} {m n : Nat}

/-- What a value holds, a key before its value. -/
def inside (h : Heap) : Value → List Value
  | .list r => (h.items r).toList
  | .dict r => (h.entries r).toList.flatMap fun (k, v) => [k, v]
  | .struct r => (h.fields r).toList
  | _ => []

/-- The container `r` holds the container `s`. -/
def Contains (h : Heap) (r s : Ref) : Prop := ∃ v ∈ h.children r, v.ref? = some s

/-- No container lies inside itself. -/
def Acyclic (h : Heap) : Prop := ∀ r, ¬TransGen h.Contains r r

/-- The value has a place in the heap if it is a container. -/
def InRange (h : Heap) (v : Value) : Prop := ∀ r, v.ref? = some r → r < h.cells.size

/-- Everything that is held has a place in the heap. -/
def Closed (h : Heap) : Prop := ∀ r, ∀ v ∈ h.children r, h.InRange v

theorem lt_size_of_mem_children (hv : v ∈ h.children r) : r < h.cells.size := by
  unfold children at hv
  split at hv
  · exact (Array.getElem?_eq_some_iff.1 ‹_›).1
  · cases hv

theorem mem_inside_list (hv : v ∈ (h.items r).toList) : v ∈ h.inside (.list r) := hv

theorem mem_inside_struct (hv : v ∈ (h.fields r).toList) : v ∈ h.inside (.struct r) := hv

theorem mem_inside_dict {e : Value × Value} (he : e ∈ (h.entries r).toList) :
    e.1 ∈ h.inside (.dict r) ∧ e.2 ∈ h.inside (.dict r) :=
  ⟨List.mem_flatMap.2 ⟨e, he, by simp⟩, List.mem_flatMap.2 ⟨e, he, by simp⟩⟩

theorem forall_entries {P : Value → Prop} (hP : ∀ v ∈ h.inside (.dict r), P v) :
    ∀ e ∈ (h.entries r).toList, P e.1 ∧ P e.2 := fun _ he =>
  ⟨hP _ (mem_inside_dict he).1, hP _ (mem_inside_dict he).2⟩

/-- A value holds what its container holds. -/
theorem mem_children_of_mem_inside (hw : w ∈ h.inside v) :
    ∃ r, v.ref? = some r ∧ w ∈ h.children r := by
  cases v with
  | list r =>
    refine ⟨r, rfl, ?_⟩
    simp only [inside, items] at hw
    split at hw <;> simp_all [children, Cell.children]
  | struct r =>
    refine ⟨r, rfl, ?_⟩
    simp only [inside, fields] at hw
    split at hw <;> simp_all [children, Cell.children]
  | dict r =>
    refine ⟨r, rfl, ?_⟩
    simp only [inside, entries] at hw
    split at hw
    · rename_i hcell
      simpa [children, hcell, Cell.children] using hw
    · simp at hw
  | _ => cases hw

/-! ### How deep values are -/

/-- At most `n` containers lie inside one another at the value. -/
def FitsIn (h : Heap) : (n : Nat) → Value → Prop
  | 0, v => v.ref? = none
  | n + 1, v => ∀ w ∈ h.inside v, FitsIn h n w

theorem inside_of_ref?_eq_none (hv : v.ref? = none) : h.inside v = [] := by
  cases v <;> first | rfl | cases hv

theorem FitsIn.succ (hv : h.FitsIn n v) : h.FitsIn (n + 1) v := by
  induction n generalizing v with
  | zero =>
    intro w hw
    rw [inside_of_ref?_eq_none hv] at hw
    cases hw
  | succ n ih => exact fun w hw => ih (hv w hw)

theorem FitsIn.mono (hv : h.FitsIn m v) (hmn : m ≤ n) : h.FitsIn n v :=
  Nat.le_induction hv (fun _ _ => FitsIn.succ) n hmn

/-- A container without a place in the heap holds nothing. -/
theorem fitsIn_one_of_not_lt (hv : v.ref? = some r) (hr : ¬r < h.cells.size) : h.FitsIn 1 v := by
  intro w hw
  obtain ⟨s, hs, hw⟩ := mem_children_of_mem_inside hw
  cases hv.symm.trans hs
  exact absurd (lt_size_of_mem_children hw) hr

/-- The containers with a place in the heap that lie inside a container. -/
private noncomputable def below (h : Heap) (r : Ref) : Finset Ref :=
  open Classical in (Finset.range h.cells.size).filter (TransGen h.Contains r)

private theorem below_ssubset (ha : h.Acyclic) (hrs : h.Contains r s) (hs : s < h.cells.size) :
    h.below s ⊂ h.below r := by
  classical
  refine Finset.ssubset_iff_of_subset ?_ |>.2 ⟨s, ?_, ?_⟩
  · intro t ht
    obtain ⟨hsize, hst⟩ := Finset.mem_filter.1 ht
    exact Finset.mem_filter.2 ⟨hsize, .head hrs hst⟩
  · exact Finset.mem_filter.2 ⟨Finset.mem_range.2 hs, .single hrs⟩
  · exact fun h => ha s (Finset.mem_filter.1 h).2

private theorem card_below_lt (ha : h.Acyclic) (hr : r < h.cells.size) :
    (h.below r).card < h.cells.size := by
  classical
  have hmem : r ∈ Finset.range h.cells.size := Finset.mem_range.2 hr
  have hlt := Finset.card_lt_card <| Finset.ssubset_iff_of_subset (Finset.filter_subset _ _) |>.2
    ⟨r, hmem, fun h => ha r (Finset.mem_filter.1 h).2⟩
  rwa [Finset.card_range] at hlt

private theorem fitsIn_card_below (ha : h.Acyclic) (hv : v.ref? = some r) :
    h.FitsIn ((h.below r).card + 2) v := by
  induction hn : (h.below r).card using Nat.strong_induction_on generalizing r v with
  | _ n ih =>
    intro w hw
    obtain ⟨_, hr, hw⟩ := mem_children_of_mem_inside hw
    cases hv.symm.trans hr
    cases hs : w.ref? with
    | none => exact FitsIn.mono (m := 0) hs (by omega)
    | some s =>
      by_cases hsize : s < h.cells.size
      · have hlt := Finset.card_lt_card (below_ssubset ha ⟨w, hw, hs⟩ hsize)
        exact (ih _ (hn ▸ hlt) hs rfl).mono (by omega)
      · exact (fitsIn_one_of_not_lt hs hsize).mono (by omega)

/-- The depth of the heap is enough for every value. -/
theorem Acyclic.fitsIn (ha : h.Acyclic) (v : Value) : h.FitsIn h.depth v := by
  cases hv : v.ref? with
  | none => exact FitsIn.mono (m := 0) hv (Nat.zero_le _)
  | some r =>
    by_cases hr : r < h.cells.size
    · have := card_below_lt ha hr
      exact (fitsIn_card_below ha hv).mono (by rw [depth]; omega)
    · exact (fitsIn_one_of_not_lt hv hr).mono (by rw [depth]; omega)

/-- Induction over what values hold. -/
theorem Acyclic.induction {P : Value → Prop} (ha : h.Acyclic)
    (step : ∀ v, (∀ w ∈ h.inside v, P w) → P v) (v : Value) : P v := by
  have hfits := ha.fitsIn v
  generalize h.depth = n at hfits
  induction n generalizing v with
  | zero =>
    refine step v fun w hw => ?_
    rw [inside_of_ref?_eq_none hfits] at hw
    cases hw
  | succ n ih => exact step v fun w hw => ih w (hfits w hw)

/-! ### The datum of a value -/

theorem children_datumTo (h : Heap) (n : Nat) (v : Value) :
    (h.datumTo (n + 1) v).children = (h.inside v).map (h.datumTo n) := by
  cases v with
  | dict r =>
    rw [datumTo, Datum.children, inside, List.map_flatMap, List.flatMap_map]
    rfl
  | _ => rfl

theorem FitsIn.datumTo_succ (hv : h.FitsIn n v) : h.datumTo (n + 1) v = h.datumTo n v := by
  induction n generalizing v with
  | zero => cases v <;> first | rfl | cases hv
  | succ n ih =>
    cases v with
    | list r =>
      have hitems : ∀ w ∈ (h.items r).toList, h.datumTo (n + 1) w = h.datumTo n w := fun w hw =>
        ih (hv w (mem_inside_list hw))
      rw [datumTo, datumTo, List.map_congr_left hitems]
    | struct r =>
      have hfields : ∀ w ∈ (h.fields r).toList, h.datumTo (n + 1) w = h.datumTo n w := fun w hw =>
        ih (hv w (mem_inside_struct hw))
      rw [datumTo, datumTo, List.map_congr_left hfields]
    | dict r =>
      have hentries : ∀ e ∈ (h.entries r).toList, (h.datumTo (n + 1) e.1, h.datumTo (n + 1) e.2) =
          (h.datumTo n e.1, h.datumTo n e.2) := fun e he => by
        have he := mem_inside_dict he
        rw [ih (hv _ he.1), ih (hv _ he.2)]
      rw [datumTo, datumTo, List.map_congr_left hentries]
    | _ => rfl

theorem FitsIn.datumTo_eq (hv : h.FitsIn m v) (hmn : m ≤ n) : h.datumTo n v = h.datumTo m v := by
  induction n, hmn using Nat.le_induction with
  | base => rfl
  | succ n hmn ih => rw [(hv.mono hmn).datumTo_succ, ih]

namespace Acyclic

theorem datumTo_eq (ha : h.Acyclic) (hv : h.FitsIn n v) : h.datumTo n v = h.datum v := by
  rcases Nat.le_total n h.depth with hle | hle
  · exact (hv.datumTo_eq hle).symm
  · exact (ha.fitsIn v).datumTo_eq hle

theorem datum_list (ha : h.Acyclic) (r : Ref) :
    h.datum (.list r) = .list ((h.items r).toList.map h.datum) := by
  have hitems : ∀ w ∈ (h.items r).toList, h.datumTo h.cells.size w = h.datum w := fun w hw =>
    ha.datumTo_eq (ha.fitsIn (.list r) w (mem_inside_list hw))
  rw [datum, depth, datumTo, List.map_congr_left hitems]

theorem datum_struct (ha : h.Acyclic) (r : Ref) :
    h.datum (.struct r) = .struct ((h.fields r).toList.map h.datum) := by
  have hfields : ∀ w ∈ (h.fields r).toList, h.datumTo h.cells.size w = h.datum w := fun w hw =>
    ha.datumTo_eq (ha.fitsIn (.struct r) w (mem_inside_struct hw))
  rw [datum, depth, datumTo, List.map_congr_left hfields]

theorem datum_dict (ha : h.Acyclic) (r : Ref) :
    h.datum (.dict r) =
      .dict ((h.entries r).toList.map fun e => (h.datum e.1, h.datum e.2)) := by
  have hentries : ∀ e ∈ (h.entries r).toList,
      (h.datumTo h.cells.size e.1, h.datumTo h.cells.size e.2) = (h.datum e.1, h.datum e.2) :=
    fun e he => by
      have he := mem_inside_dict he
      rw [ha.datumTo_eq (ha.fitsIn (.dict r) _ he.1), ha.datumTo_eq (ha.fitsIn (.dict r) _ he.2)]
  rw [datum, depth, datumTo, List.map_congr_left hentries]

theorem children_datum (ha : h.Acyclic) (v : Value) :
    (h.datum v).children = (h.inside v).map h.datum := by
  have hinside : ∀ w ∈ h.inside v, h.datumTo h.cells.size w = h.datum w := fun w hw =>
    ha.datumTo_eq (ha.fitsIn v w hw)
  rw [datum, depth, children_datumTo, List.map_congr_left hinside]

end Acyclic

/-! ### What lies within a value -/

/-- The value `w` is `v` itself or lies somewhere inside it. -/
def Within (h : Heap) (v w : Value) : Prop := ReflTransGen (fun v w => w ∈ h.inside v) v w

/-- A property of the datum and of all inside it is one of the data of all that lies within. -/
theorem Acyclic.everywhere_datum_iff {P : Datum → Prop} (ha : h.Acyclic) :
    (h.datum v).Everywhere P ↔ ∀ w, h.Within v w → P (h.datum w) := by
  constructor
  · intro hP w hw
    induction hw using ReflTransGen.head_induction_on with
    | refl => exact hP.self
    | head hin _ ih =>
      refine ih (hP.child ?_)
      rw [ha.children_datum]
      exact List.mem_map_of_mem hin
  · intro hP
    induction v using ha.induction with
    | step v ih =>
      refine Datum.everywhere_iff.2 ⟨hP v .refl, fun d hd => ?_⟩
      rw [ha.children_datum] at hd
      obtain ⟨w, hw, rfl⟩ := List.mem_map.1 hd
      exact ih w hw fun u hu => hP u (.head hw hu)

end EventScript.Heap
