import EventScript.Proofs.Heap.Containment
import Mathlib.Data.List.Basic

/-!
Visits. All that lies within a value is visited in one order: a value before what it holds, and that
from first to last, a key before its value. What is shared is visited at each of its places.
-/
namespace EventScript

section Lists

variable {α β γ : Type} {f : α → List β} {as : List α}

theorem findSome?_flatMap (p : β → Option γ) (f : α → List β) (as : List α) :
    (as.flatMap f).findSome? p = as.findSome? fun a => (f a).findSome? p := by
  induction as with
  | nil => rfl
  | cons a as ih =>
    rw [List.flatMap_cons, List.findSome?_append, ih, List.findSome?_cons]
    cases (f a).findSome? p <;> rfl

/-- An item in the pieces is in one of them, and what is before it in that piece is before it. -/
theorem exists_of_flatMap_eq_append_cons {before after : List β} {b : β}
    (h : as.flatMap f = before ++ b :: after) :
    ∃ a ∈ as, ∃ front back, f a = front ++ b :: back ∧ front ⊆ before := by
  induction as generalizing before with
  | nil => simp at h
  | cons a as ih =>
    rw [List.flatMap_cons] at h
    rcases List.append_eq_append_iff.1 h with ⟨before', rfl, hrest⟩ | ⟨rest, hfirst, hrest⟩
    · obtain ⟨c, hc, front, back, heq, hfront⟩ := ih hrest
      exact ⟨c, List.mem_cons_of_mem _ hc, front, back, heq,
        List.Subset.trans hfront (List.subset_append_right ..)⟩
    · rcases rest with _ | ⟨b', rest⟩
      · have hrest : as.flatMap f = [] ++ b :: after := hrest.symm
        obtain ⟨c, hc, front, back, heq, hfront⟩ := ih hrest
        exact ⟨c, List.mem_cons_of_mem _ hc, front, back, heq,
          List.Subset.trans hfront (List.nil_subset _)⟩
      · obtain ⟨rfl, -⟩ := List.cons.inj hrest
        exact ⟨a, List.mem_cons_self, before, rest, hfirst, List.Subset.refl _⟩

end Lists

namespace Heap

variable {h : Heap} {u v w : Value} {m n depth : Nat}

/-- The value `w` is inside `n` containers of which `v` is the outermost. -/
inductive LiesIn (h : Heap) : (n : Nat) → (v w : Value) → Prop
  | self (v : Value) : LiesIn h 0 v v
  | inside {n : Nat} {u v w : Value} (hu : u ∈ h.inside v) (hw : LiesIn h n u w) :
    LiesIn h (n + 1) v w

/-- The visits to a value inside `depth` containers and to what lies within it, as far as the fuel
goes, each with the number of containers around. -/
def visitsTo (h : Heap) : (fuel depth : Nat) → Value → List (Nat × Value)
  | 0, depth, v => [(depth, v)]
  | fuel + 1, depth, v => (depth, v) :: (h.inside v).flatMap (visitsTo h fuel (depth + 1))

/-- The visits to a value inside `depth` containers and to all that lies within it. -/
def visits (h : Heap) (depth : Nat) (v : Value) : List (Nat × Value) := h.visitsTo h.depth depth v

theorem FitsIn.visitsTo_succ (hv : h.FitsIn n v) :
    h.visitsTo (n + 1) depth v = h.visitsTo n depth v := by
  induction n generalizing v depth with
  | zero => rw [visitsTo, visitsTo, inside_of_ref?_eq_none hv, List.flatMap_nil]
  | succ n ih =>
    rw [visitsTo, visitsTo]
    congr 1
    exact List.flatMap_congr fun w hw => ih (hv w hw)

namespace Acyclic

/-- In a heap without cycles the visits are to all of a value, whatever is in it. -/
theorem visits_eq (ha : h.Acyclic) (depth : Nat) (v : Value) :
    h.visits depth v = (depth, v) :: (h.inside v).flatMap (h.visits (depth + 1)) := by
  rw [visits, ← (ha.fitsIn v).visitsTo_succ]
  rfl

theorem mem_visits_iff (ha : h.Acyclic) :
    (m, w) ∈ h.visits depth v ↔ ∃ n, m = depth + n ∧ h.LiesIn n v w := by
  induction v using ha.induction generalizing depth with
  | step v ih =>
    rw [ha.visits_eq, List.mem_cons, List.mem_flatMap, Prod.mk.injEq]
    constructor
    · rintro (⟨rfl, rfl⟩ | ⟨u, hu, hw⟩)
      · exact ⟨0, rfl, .self w⟩
      · obtain ⟨n, rfl, hlies⟩ := (ih u hu).1 hw
        exact ⟨n + 1, by omega, .inside hu hlies⟩
    · rintro ⟨n, rfl, _ | ⟨hu, hw⟩⟩
      · exact .inl ⟨rfl, rfl⟩
      · exact .inr ⟨_, hu, (ih _ hu).2 ⟨_, by omega, hw⟩⟩

/-- What lies inside one more container is visited after the container it lies in. -/
theorem exists_visit_around (ha : h.Acyclic) {before after : List (Nat × Value)}
    (hvisits : h.visits depth v = before ++ (m + 1, w) :: after) (hm : depth ≤ m) :
    ∃ u, (m, u) ∈ before := by
  induction v using ha.induction generalizing depth before after with
  | step v ih =>
    rw [ha.visits_eq] at hvisits
    rcases before with _ | ⟨first, before⟩
    · cases hvisits
      omega
    · obtain ⟨rfl, hrest⟩ := List.cons.inj hvisits
      obtain rfl | hlt := hm.eq_or_lt
      · exact ⟨v, List.mem_cons_self⟩
      · obtain ⟨u, hu, front, back, hvisits, hfront⟩ := exists_of_flatMap_eq_append_cons hrest
        obtain ⟨x, hx⟩ := ih u hu hvisits hlt
        exact ⟨x, List.mem_cons_of_mem _ (hfront hx)⟩

end Acyclic

end Heap

end EventScript
