import EventScript.Proofs.Heap.Changing

/-!
Handles and their containers. A handle in use is of the kind of its container; nothing that is done
to the heap changes the kind of a container, so a handle that was genuine stays so.
-/
namespace EventScript

def Cell.kind : Cell → ValueKind
  | list _ => .list
  | dict _ => .dict
  | struct _ => .struct

@[simp] theorem Cell.kind_push (v : Value) (cell : Cell) : (cell.push v).kind = cell.kind := by
  cases cell <;> rfl

@[simp] theorem Cell.kind_setEntries (es : Array (Value × Value)) (cell : Cell) :
    (cell.setEntries es).kind = cell.kind := by
  cases cell <;> rfl

@[simp] theorem Cell.kind_setField (i : Nat) (v : Value) (cell : Cell) :
    (cell.setField i v).kind = cell.kind := by
  cases cell <;> rfl

namespace Heap

open Relation

variable {h h' : Heap} {r : Ref} {v w key value : Value} {vs : List Value} {cell : Cell}
  {change : Cell → Cell}

/-- The kind of the container in a place of the heap. -/
def kindAt? (h : Heap) (r : Ref) : Option ValueKind := (h.cells[r]?).map Cell.kind

/-- A handle is of the kind of its container. -/
def Genuine (h : Heap) (v : Value) : Prop := ∀ r, v.ref? = some r → h.kindAt? r = some v.kind

/-- Everything that is held is genuine. -/
def HoldsGenuine (h : Heap) : Prop := ∀ r, ∀ v ∈ h.children r, h.Genuine v

/-- Containers stay where they are and of their kind. -/
def KeepsKinds (h h' : Heap) : Prop := ∀ r kind, h.kindAt? r = some kind → h'.kindAt? r = some kind

theorem genuine_of_ref?_eq_none (hv : v.ref? = none) : h.Genuine v := fun r hr => by
  rw [hv] at hr
  cases hr

theorem Genuine.inRange (hv : h.Genuine v) : h.InRange v := fun r hr => by
  obtain ⟨_, hcell, _⟩ := Option.map_eq_some_iff.1 (hv r hr)
  exact (Array.getElem?_eq_some_iff.1 hcell).1

theorem Genuine.mono (hv : h.Genuine v) (hk : h.KeepsKinds h') : h'.Genuine v :=
  fun r hr => hk r _ (hv r hr)

theorem KeepsKinds.refl (h : Heap) : h.KeepsKinds h := fun _ _ hk => hk

theorem KeepsKinds.trans {h'' : Heap} (hk : h.KeepsKinds h') (hk' : h'.KeepsKinds h'') :
    h.KeepsKinds h'' := fun r kind hr => hk' r kind (hk r kind hr)

theorem Extends.keepsKinds (hx : h'.Extends h) : h.KeepsKinds h' := fun r kind hr => by
  obtain ⟨cell, hcell, hkind⟩ := Option.map_eq_some_iff.1 hr
  have hlt := (Array.getElem?_eq_some_iff.1 hcell).1
  rw [kindAt?, hx.cell_eq hlt, hcell, Option.map_some, hkind]

theorem keepsKinds_modify (hchange : ∀ cell, (change cell).kind = cell.kind) :
    h.KeepsKinds (h.modify r change) := fun s kind hs => by
  obtain ⟨cell, hcell, hkind⟩ := Option.map_eq_some_iff.1 hs
  rw [kindAt?, modify, Array.getElem?_modify, hcell]
  split <;> simp [hchange, hkind]

/-- What a genuine handle holds is what its container holds. -/
theorem Genuine.inside_eq (hv : h.Genuine v) (hr : v.ref? = some r) :
    h.inside v = h.children r := by
  obtain ⟨cell, hcell, hkind⟩ := Option.map_eq_some_iff.1 (hv r hr)
  cases v <;> cases hr <;> cases cell <;> cases hkind <;>
    simp [inside, items, entries, fields, children, hcell, Cell.children]

/-- A container that a genuine value leads to lies within it. -/
theorem HoldsGenuine.within_of_leads (hh : h.HoldsGenuine) (hv : h.Genuine v)
    (hlead : h.Leads v r) : ∃ w, h.Within v w ∧ h.Genuine w ∧ w.ref? = some r := by
  obtain ⟨s, hs, hpath⟩ := hlead
  induction hpath using ReflTransGen.head_induction_on generalizing v with
  | refl => exact ⟨v, .refl, hv, hs⟩
  | head hedge _ ih =>
    obtain ⟨w, hw, ht⟩ := hedge
    obtain ⟨u, hu, hrest⟩ := ih (hh _ w hw) ht
    rw [← hv.inside_eq hs] at hw
    exact ⟨u, .head hw hu, hrest⟩

/-! ### What is done to the heap -/

theorem HoldsGenuine.alloc (hh : h.HoldsGenuine) (hcell : ∀ w ∈ cell.children, h.Genuine w) :
    (h.alloc cell).2.HoldsGenuine := by
  intro r w hw
  have hk := (extends_alloc h cell).keepsKinds
  rcases Nat.lt_or_ge r h.cells.size with hr | hr
  · rw [children_alloc_of_lt hr] at hw
    exact (hh r w hw).mono hk
  · have hsize : (h.alloc cell).2.cells.size = h.cells.size + 1 := Array.size_push _
    have hlt : r < h.cells.size + 1 := hsize ▸ lt_size_of_mem_children hw
    cases Nat.le_antisymm (Nat.le_of_lt_succ hlt) hr
    rw [children_alloc_self] at hw
    exact (hcell w hw).mono hk

theorem HoldsGenuine.modify (hh : h.HoldsGenuine) (hc : h.Admits r vs change)
    (hchange : ∀ cell, (change cell).kind = cell.kind) (hvs : ∀ w ∈ vs, h.Genuine w) :
    (h.modify r change).HoldsGenuine := by
  intro s w hw
  have hk : h.KeepsKinds (h.modify r change) := keepsKinds_modify hchange
  by_cases hs : s = r
  · subst hs
    rcases hc.children w hw with hw | hw
    · exact (hh s w hw).mono hk
    · exact (hvs w hw).mono hk
  · rw [children_modify_of_ne hs] at hw
    exact (hh s w hw).mono hk

end Heap

end EventScript
