import EventScript.Proofs.Machine.Actions

/-!
Lists only grow. Whatever is done to a heap, a list keeps its items in their places, and gets more
of them at its end.
-/
namespace EventScript.Heap

/-- Every list has the items that it had, and perhaps others behind them. -/
def ListsGrow (h h' : Heap) : Prop := ∀ r, ∃ more, h'.items r = h.items r ++ more

variable {h h' h'' : Heap} {r : Ref} {key v : Value} {i arity : Nat} {change : Cell → Cell}

namespace ListsGrow

theorem refl (h : Heap) : h.ListsGrow h := fun _ => ⟨#[], Array.append_empty.symm⟩

theorem trans (hg : h.ListsGrow h') (hg' : h'.ListsGrow h'') : h.ListsGrow h'' := fun r => by
  obtain ⟨more, hmore⟩ := hg r
  obtain ⟨more', hmore'⟩ := hg' r
  exact ⟨more ++ more', by rw [hmore', hmore, Array.append_assoc]⟩

theorem size_le (hg : h.ListsGrow h') (r : Ref) : (h.items r).size ≤ (h'.items r).size := by
  obtain ⟨more, hmore⟩ := hg r
  rw [hmore, Array.size_append]
  exact Nat.le_add_right _ _

theorem getElem?_eq (hg : h.ListsGrow h') (hv : (h.items r)[i]? = some v) :
    (h'.items r)[i]? = some v := by
  obtain ⟨more, hmore⟩ := hg r
  rw [hmore, Array.getElem?_append_left (Array.getElem?_eq_some_iff.1 hv).1, hv]

end ListsGrow

theorem items_congr (hcells : h'.cells = h.cells) : h'.items = h.items := by
  funext r
  rw [items, items, hcells]

theorem Extends.listsGrow (hx : h'.Extends h) : h.ListsGrow h' := fun r => by
  by_cases hr : r < h.cells.size
  · exact ⟨#[], by rw [items, items, hx.cell_eq hr, Array.append_empty]⟩
  · have hnone : h.items r = #[] := by
      rw [items, Array.getElem?_eq_none (Nat.le_of_not_lt hr)]
    exact ⟨h'.items r, by rw [hnone, Array.empty_append]⟩

theorem listsGrow_modify
    (hchange : ∀ items, ∃ more, change (.list items) = .list (items ++ more)) :
    h.ListsGrow (h.modify r change) := fun s => by
  have hcell : (h.modify r change).cells[s]? =
      if r = s then h.cells[s]?.map change else h.cells[s]? := Array.getElem?_modify
  rw [items, items, hcell]
  by_cases hs : r = s
  · rw [if_pos hs]
    cases h.cells[s]? with
    | none => exact ⟨#[], rfl⟩
    | some cell =>
      cases cell with
      | list items =>
        obtain ⟨more, hmore⟩ := hchange items
        exact ⟨more, by simp only [Option.map_some, hmore]⟩
      | dict | struct => exact ⟨_, (Array.empty_append ..).symm⟩
  · rw [if_neg hs]
    exact ⟨#[], Array.append_empty.symm⟩

theorem listsGrow_alloc (h : Heap) (cell : Cell) : h.ListsGrow (h.alloc cell).2 :=
  (extends_alloc h cell).listsGrow

theorem listsGrow_push : h.ListsGrow (h.push r v).2 := by
  rw [push]
  split
  · exact .refl h
  · exact listsGrow_modify fun items => ⟨#[v], by rw [Cell.push, Array.push_eq_append]⟩

theorem listsGrow_insert : h.ListsGrow (h.insert r key v).2 := by
  rw [insert]
  split
  · exact .refl h
  · exact listsGrow_modify fun items => ⟨#[], congrArg _ Array.append_empty.symm⟩

theorem listsGrow_setField : h.ListsGrow (h.setField r i v).2 := by
  rw [setField]
  split
  · exact .refl h
  · split
    · exact listsGrow_modify fun items => ⟨#[], congrArg _ Array.append_empty.symm⟩
    · exact .refl h

theorem listsGrow_newFilled : h.ListsGrow (h.newFilled arity v).2 := by
  rw [newFilled]
  split
  · exact .refl h
  · exact listsGrow_alloc h _

theorem listsGrow_storeItems {ds : List Datum}
    (ih : ∀ d ∈ ds, ∀ h : Heap, h.ListsGrow (h.store d).2) (h : Heap) :
    h.ListsGrow (h.storeItems ds).2 := by
  induction ds generalizing h with
  | nil => exact .refl h
  | cons d ds ihs =>
    obtain ⟨hd, hds⟩ := List.forall_mem_cons.1 ih
    exact (hd h).trans (ihs hds _)

theorem listsGrow_storeEntries {es : List (Datum × Datum)}
    (ih : ∀ e ∈ es, ∀ h : Heap, h.ListsGrow (h.store e.1).2 ∧ h.ListsGrow (h.store e.2).2)
    (h : Heap) : h.ListsGrow (h.storeEntries es).2 := by
  induction es generalizing h with
  | nil => exact .refl h
  | cons e es ihs =>
    obtain ⟨he, hes⟩ := List.forall_mem_cons.1 ih
    exact ((he h).1.trans (he _).2).trans (ihs hes _)

theorem listsGrow_store (h : Heap) (d : Datum) : h.ListsGrow (h.store d).2 := by
  induction d generalizing h with
  | list items ih =>
    exact (listsGrow_storeItems (fun d hd h => ih d hd h) h).trans (listsGrow_alloc _ _)
  | struct fields ih =>
    exact (listsGrow_storeItems (fun d hd h => ih d hd h) h).trans (listsGrow_alloc _ _)
  | dict entries ih =>
    exact (listsGrow_storeEntries (fun e he h => ⟨(ih e he).1 h, (ih e he).2 h⟩) h).trans
      (listsGrow_alloc _ _)
  | _ => exact .refl h

theorem listsGrow_direct {action : Action} (hdirect : action.IsDirect) :
    h.ListsGrow (action.perform h) := by
  cases action with
  | newList | newDict | newStruct => exact listsGrow_alloc h _
  | push => exact listsGrow_push
  | insert => exact listsGrow_insert
  | newFilled => exact listsGrow_newFilled
  | setField => exact listsGrow_setField
  | decode reader =>
    simp only [Action.perform]
    split
    · exact listsGrow_store h _
    · exact .refl h
  | native => cases hdirect

theorem ActedOn.listsGrow {given : List Value} (h' : h.ActedOn given h'') : h.ListsGrow h'' := by
  cases h' with
  | not => exact .refl h
  | once action direct _ => exact listsGrow_direct direct

/-- Whatever is done to a heap, its lists only grow. -/
theorem listsGrow_perform (h : Heap) (action : Action) : h.ListsGrow (action.perform h) := by
  by_cases hdirect : action.IsDirect
  · exact listsGrow_direct hdirect
  · cases action with
    | native op s => exact (op.actedOn { s with world.heap := h }).listsGrow
    | _ => exact absurd trivial hdirect

theorem listsGrow_after (h : Heap) (actions : List Action) : h.ListsGrow (h.after actions) := by
  induction actions generalizing h with
  | nil => exact .refl h
  | cons action actions ih => exact (listsGrow_perform h action).trans (ih _)

end EventScript.Heap
