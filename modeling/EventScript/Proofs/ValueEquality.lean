import EventScript.Proofs.DictLookups
import Mathlib

/-!
Equality of values. Where no stored key was changed, it comes to an end on all values, is an
equivalence, and looks at nothing but what values hold: not at the order of entries, nor at which
containers are shared. So keys in one dict are different, as looking them up needs.
-/
namespace EventScript

theorem Number.eq_iff {m n : Number} : m = n ↔ m.bits = n.bits := by
  cases m
  cases n
  rw [mk.injEq]

theorem Vec3.eq_iff {v w : Vec3} :
    v = w ↔ v.x.bits = w.x.bits ∧ v.y.bits = w.y.bits ∧ v.z.bits = w.z.bits := by
  cases v
  cases w
  simp only [mk.injEq, Number.eq_iff]

namespace Heap

open Datum

variable {h : Heap} {r s : Ref} {v w : Value}

/-- Values are equal just if what they hold is, container by container. -/
structure EqualByContents (h : Heap) : Prop where
  /-- Comparisons lie in one another at most as deep as there are containers. -/
  ends : ∀ v w, h.compare? (h.depth + 1) v w = some (h.same v w)
  equivalence : Equivalence fun v w => h.same v w = true
  kinds : ∀ v w, h.same v w = true → v.kind = w.kind
  numbers : ∀ m n, h.same (.number m) (.number n) = true ↔ m.bits = n.bits
  vectors : ∀ v w, h.same (.vector v) (.vector w) = true ↔
    v.x.bits = w.x.bits ∧ v.y.bits = w.y.bits ∧ v.z.bits = w.z.bits
  /-- What is no container is equal to itself alone. -/
  plain : ∀ v w, v.ref? = none → (h.same v w = true ↔ v = w)
  lists : ∀ r s, h.same (.list r) (.list s) = true ↔
    List.Forall₂ (fun v w => h.same v w = true) (h.items r).toList (h.items s).toList
  structs : ∀ r s, h.same (.struct r) (.struct s) = true ↔
    List.Forall₂ (fun v w => h.same v w = true) (h.fields r).toList (h.fields s).toList
  /-- Entries correspond to one another in some order. -/
  dicts : ∀ r s, h.same (.dict r) (.dict s) = true ↔ ∃ entries,
    List.Forall₂ (fun e f => h.same e.1 f.1 = true ∧ h.same e.2 f.2 = true)
      (h.entries r).toList entries ∧ entries.Perm (h.entries s).toList
  /-- Handles do not matter at any depth: the data of values, in which there are none, decide. -/
  data : ∀ v w, h.same v w = true ↔ (h.datum v).Alike (h.datum w)
  keys : ∀ r, (h.entries r).toList.Pairwise fun e f => h.same e.1 f.1 = false

namespace Orderly

theorem equivalence_same (hh : h.Orderly) : Equivalence fun v w => h.same v w = true := by
  simp only [hh.same_iff]
  exact ⟨fun _ => .refl _, .symm, .trans⟩

theorem same_list_iff (hh : h.Orderly) (r s : Ref) : h.same (.list r) (.list s) = true ↔
    List.Forall₂ (fun v w => h.same v w = true) (h.items r).toList (h.items s).toList := by
  have ha := hh.wellFormed.acyclic
  simp only [hh.same_iff, ha.datum_list]
  rw [← List.forall₂_map_right_iff, ← List.forall₂_map_left_iff]
  exact ⟨fun | .list h => h, .list⟩

theorem same_struct_iff (hh : h.Orderly) (r s : Ref) : h.same (.struct r) (.struct s) = true ↔
    List.Forall₂ (fun v w => h.same v w = true) (h.fields r).toList (h.fields s).toList := by
  have ha := hh.wellFormed.acyclic
  simp only [hh.same_iff, ha.datum_struct]
  rw [← List.forall₂_map_right_iff, ← List.forall₂_map_left_iff]
  exact ⟨fun | .struct h => h, .struct⟩

theorem same_dict_iff (hh : h.Orderly) (r s : Ref) : h.same (.dict r) (.dict s) = true ↔
    ∃ entries, List.Forall₂ (fun e f => h.same e.1 f.1 = true ∧ h.same e.2 f.2 = true)
      (h.entries r).toList entries ∧ entries.Perm (h.entries s).toList := by
  have ha := hh.wellFormed.acyclic
  have hkeys : KeysDiffer (fun v w => h.same v w = true) (h.entries r).toList :=
    (hh.keysApart r).imp fun hne => by simp [hne]
  have hdata := (ha.keysDiffer_iff fun e _ => hh.hasDistinctKeys e.1).2 (hh.keysApart r)
  -- Both sides mean that there are as many entries, and to each an equal one.
  refine Iff.trans ?_
    (exists_perm_iff (S := fun v w => h.same v w = true) hh.equivalence_same hkeys)
  rw [hh.same_iff, ha.datum_dict, ha.datum_dict, alike_dict_iff,
    ← exists_perm_iff equivalence_alike hdata]
  simp only [hh.same_iff, List.length_map, List.forall_mem_map]
  simp only [List.mem_map, exists_exists_and_eq_and]

/-- Values of different kinds are not equal, in any heap. -/
theorem kind_eq_of_same (hsame : h.same v w = true) : v.kind = w.kind := by
  rw [same, depth, sameTo_succ, Bool.or_eq_true, decide_eq_true_iff] at hsame
  rcases hsame with rfl | hsame
  · rfl
  · cases v <;> cases w <;> first | rfl | cases hsame

theorem equalByContents (hh : h.Orderly) : h.EqualByContents where
  ends := hh.wellFormed.acyclic.compare?_eq
  equivalence := hh.equivalence_same
  kinds _ _ := kind_eq_of_same
  numbers m n := by
    rw [same, sameTo_of_ref?_eq_none rfl, Value.number.injEq, Number.eq_iff]
  vectors v w := by
    rw [same, sameTo_of_ref?_eq_none rfl, Value.vector.injEq, Vec3.eq_iff]
  plain _ _ := sameTo_of_ref?_eq_none
  lists := hh.same_list_iff
  structs := hh.same_struct_iff
  dicts := hh.same_dict_iff
  data := hh.same_iff
  keys := hh.keysApart

end Orderly

/-- After any actions that spare stored keys, values are equal just if what they hold is. -/
theorem equalByContents_after {actions : List Action} (hspares : Heap.empty.SparesKeys actions) :
    (Heap.empty.after actions).EqualByContents :=
  (orderly_empty.after hspares).equalByContents

/-- Two lists that are alike. -/
def twins : Heap := ((Heap.empty.newList #[]).2.newList #[]).2

/-- A dict with one of them as key and the other as value. -/
def crossed : Heap := (twins.newDict #[(.list 0, .number .one), (.string "k", .list 1)]).2

/-- The twins, that dict, and one with the twins exchanged and the entries in opposite order. -/
def mirrored : List Action :=
  [.newList #[], .newList #[], .newDict #[(.list 0, .number .one), (.string "k", .list 1)],
    .newDict #[(.string "k", .list 0), (.list 1, .number .one)]]

theorem equalByContents_after_mirrored : Heap.empty.SparesKeys mirrored ∧
    (Heap.empty.after mirrored).EqualByContents ∧
      (Heap.empty.after mirrored).same (.list 0) (.list 1) = true ∧
        (Heap.empty.after mirrored).same (.dict 2) (.dict 3) = true := by
  have hlist : (Heap.empty.newList #[]).2.Orderly := orderly_empty.newList (by simp)
  have htwins : twins.Orderly := hlist.newList (by simp)
  have hgiven : ∀ e ∈ #[(Value.list 0, Value.number .one), (.string "k", .list 1)],
      twins.Genuine e.1 ∧ twins.Genuine e.2 := by
    simp [Genuine, Value.ref?, Value.kind, kindAt?, Cell.kind, twins, newList, alloc, empty]
  have hcrossed : crossed.Orderly := htwins.newDict hgiven
  have hgiven' : ∀ e ∈ #[(Value.string "k", Value.list 0), (.list 1, .number .one)],
      crossed.Genuine e.1 ∧ crossed.Genuine e.2 := by
    simp [Genuine, Value.ref?, Value.kind, kindAt?, Cell.kind, crossed, twins, newList, newDict,
      alloc, empty]
  have hnone {h : Heap} : ∀ v ∈ (Cell.list #[]).children, h.Genuine v := by simp [Cell.children]
  have hspares : Heap.empty.SparesKeys mirrored :=
    ⟨hnone, (extends_alloc _ _).leavesKeys wellFormed_empty, hnone,
      (extends_alloc _ _).leavesKeys hlist.wellFormed, forall_children_dict.2 hgiven,
      (extends_alloc _ _).leavesKeys htwins.wellFormed, forall_children_dict.2 hgiven',
      (extends_alloc _ _).leavesKeys hcrossed.wellFormed, trivial⟩
  have hequal := equalByContents_after hspares
  have hsame : (Heap.empty.after mirrored).same (.list 0) (.list 1) = true :=
    (hequal.lists 0 1).2 .nil
  have hfirst : (Heap.empty.after mirrored).entries 2 =
      #[(.list 0, .number .one), (.string "k", .list 1)] := by cbv
  have hsecond : (Heap.empty.after mirrored).entries 3 =
      #[(.string "k", .list 0), (.list 1, .number .one)] := by cbv
  refine ⟨hspares, hequal, hsame, (hequal.dicts 2 3).2 ?_⟩
  rw [hfirst, hsecond]
  -- Put in the order of the other dict, the entries are equal one by one.
  refine ⟨[(.list 1, .number .one), (.string "k", .list 0)], ?_, .swap _ _ _⟩
  exact .cons ⟨hsame, hequal.equivalence.refl _⟩
    (.cons ⟨hequal.equivalence.refl _, hequal.equivalence.symm hsame⟩ .nil)

end Heap

end EventScript
