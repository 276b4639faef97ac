import EventScript.Proofs.Heap.Kinds
import EventScript.Proofs.RichText.Gamut

/-!
The colors of all that a value holds. A container that gets values with colors of 24 bits only has
such colors afterwards, and so has every value that leads to it.
-/
namespace EventScript.Heap

open Relation

variable {h h' : Heap} {r : Ref} {v w key value : Value} {t : RichText} {cell : Cell}
  {change : Cell → Cell}

/-- All texts within the value have colors of 24 bits. -/
def InGamut (h : Heap) (v : Value) : Prop := ∀ t, h.Within v (.text t) → t.InGamut

/-- No value gets other colors than those of 24 bits. -/
def KeepsGamut (h h' : Heap) : Prop := ∀ v, h.InGamut v → h'.InGamut v

theorem InGamut.inside (hv : h.InGamut v) (hw : w ∈ h.inside v) : h.InGamut w :=
  fun t ht => hv t (.head hw ht)

theorem inGamut_of_inside (hv : ∀ t, v ≠ .text t) (hin : ∀ w ∈ h.inside v, h.InGamut w) :
    h.InGamut v := by
  intro t ht
  rcases ht.cases_head with rfl | ⟨w, hw, ht⟩
  · exact absurd rfl (hv t)
  · exact hin w hw t ht

/-- A value that is no container and no text has no colors. -/
theorem inGamut_of_plain (href : v.ref? = none) (hv : ∀ t, v ≠ .text t) : h.InGamut v := by
  refine inGamut_of_inside hv fun w hw => ?_
  rw [inside_of_ref?_eq_none href] at hw
  cases hw

@[simp] theorem inGamut_text : h.InGamut (.text t) ↔ t.InGamut := by
  refine ⟨fun ht => ht t .refl, fun ht u hu => ?_⟩
  rcases hu.cases_head with heq | ⟨w, hw, _⟩
  · cases heq
    exact ht
  · cases hw

theorem mem_inside_iff : w ∈ h.inside v ↔ ∃ r cell, v.ref? = some r ∧ h.cells[r]? = some cell ∧
    cell.kind = v.kind ∧ w ∈ cell.children := by
  constructor
  · intro hw
    obtain ⟨r, hr, -⟩ := mem_children_of_mem_inside hw
    cases hcell : h.cells[r]? with
    | none => cases v <;> cases hr <;> simp [inside, items, entries, fields, hcell] at hw
    | some cell =>
      refine ⟨r, cell, hr, hcell, ?_⟩
      cases v <;> cases hr <;> cases cell <;>
        simp_all [inside, items, entries, fields, Cell.kind, Value.kind, Cell.children]
  · rintro ⟨r, cell, hr, hcell, hkind, hw⟩
    have hgenuine : h.Genuine v := fun s hs => by
      cases hr.symm.trans hs
      rw [kindAt?, hcell, Option.map_some, hkind]
    rw [hgenuine.inside_eq hr, children, hcell]
    exact hw

theorem KeepsGamut.refl (h : Heap) : h.KeepsGamut h := fun _ hv => hv

/-- What containers get has colors of 24 bits. -/
theorem keepsGamut_of_inside (hin : ∀ v, ∀ w ∈ h'.inside v, w ∈ h.inside v ∨ h.InGamut w) :
    h.KeepsGamut h' := by
  intro v hv t ht
  induction ht using ReflTransGen.head_induction_on with
  | refl => exact inGamut_text.1 hv
  | head hw _ ih => exact ih ((hin _ _ hw).elim hv.inside id)

theorem keepsGamut_alloc (hcell : ∀ w ∈ cell.children, h.InGamut w) :
    h.KeepsGamut (h.alloc cell).2 := by
  refine keepsGamut_of_inside fun v w hw => ?_
  obtain ⟨r, found, hr, hfound, hkind, hw⟩ := mem_inside_iff.1 hw
  rw [alloc, Array.getElem?_push] at hfound
  split at hfound
  · cases hfound
    exact .inr (hcell w hw)
  · exact .inl (mem_inside_iff.2 ⟨r, found, hr, hfound, hkind, hw⟩)

theorem inGamut_alloc (hcell : ∀ w ∈ cell.children, h.InGamut w) (hv : ∀ t, v ≠ .text t)
    (hr : v.ref? = some (h.alloc cell).1) : (h.alloc cell).2.InGamut v := by
  refine inGamut_of_inside hv fun w hw => keepsGamut_alloc hcell w (hcell w ?_)
  obtain ⟨r, found, hr', hfound, -, hw⟩ := mem_inside_iff.1 hw
  cases hr.symm.trans hr'
  rw [alloc, Array.getElem?_push_size] at hfound
  cases hfound
  exact hw

theorem keepsGamut_modify (hkind : ∀ cell, (change cell).kind = cell.kind)
    (hchange : ∀ cell, h.cells[r]? = some cell →
      ∀ w ∈ (change cell).children, w ∈ cell.children ∨ h.InGamut w) :
    h.KeepsGamut (h.modify r change) := by
  refine keepsGamut_of_inside fun v w hw => ?_
  obtain ⟨s, found, hs, hfound, hkind', hw⟩ := mem_inside_iff.1 hw
  rw [modify, Array.getElem?_modify] at hfound
  split at hfound
  · next heq =>
    subst heq
    obtain ⟨cell, hcell, rfl⟩ := Option.map_eq_some_iff.1 hfound
    rw [hkind] at hkind'
    exact (hchange cell hcell w hw).imp_left fun hw =>
      mem_inside_iff.2 ⟨r, cell, hs, hcell, hkind', hw⟩
  · exact .inl (mem_inside_iff.2 ⟨s, found, hs, hfound, hkind', hw⟩)

/-! ### The operations -/

theorem keepsGamut_push (hv : h.InGamut v) : h.KeepsGamut (h.push r v).2 := by
  rw [push]
  split
  · exact .refl h
  · refine keepsGamut_modify (Cell.kind_push v) fun cell _ w hw => ?_
    cases cell with
    | list items =>
      rcases Array.mem_push.1 (Array.mem_toList_iff.1 hw) with hw | rfl
      · exact .inl (Array.mem_toList_iff.2 hw)
      · exact .inr hv
    | _ => exact .inl hw

theorem keepsGamut_insert (hkey : h.InGamut key) (hvalue : h.InGamut value) :
    h.KeepsGamut (h.insert r key value).2 := by
  rw [insert]
  split
  · exact .refl h
  · refine keepsGamut_modify (Cell.kind_setEntries _) fun cell hcell w hw => ?_
    cases cell with
    | dict es =>
      have hes : h.entries r = es := by rw [entries, hcell]
      rw [hes] at hw
      let P (w : Value) : Prop := w ∈ (Cell.dict es).children ∨ h.InGamut w
      have hold : ∀ e ∈ es, P e.1 ∧ P e.2 := forall_children_dict.1 fun w hw => .inl hw
      exact forall_children_dict.2 (forall_putEntry hold (.inr hkey) (.inr hvalue)) w hw
    | _ => exact .inl hw

theorem keepsGamut_setField {i : Nat} (hv : h.InGamut v) : h.KeepsGamut (h.setField r i v).2 := by
  rw [setField]
  split
  · exact .refl h
  · split
    · refine keepsGamut_modify (Cell.kind_setField i v) fun cell _ w hw => ?_
      cases cell with
      | struct fields =>
        rcases Array.mem_or_eq_of_mem_setIfInBounds (Array.mem_toList_iff.1 hw) with hw | rfl
        · exact .inl (Array.mem_toList_iff.2 hw)
        · exact .inr hv
      | _ => exact .inl hw
    · exact .refl h

theorem keepsGamut_newFilled {arity : Nat} (hv : h.InGamut v) :
    h.KeepsGamut (h.newFilled arity v).2 ∧
      ∀ w, (h.newFilled arity v).1 = .ok w → (h.newFilled arity v).2.InGamut w := by
  rw [newFilled]
  split
  · exact ⟨.refl h, nofun⟩
  · have hfields : ∀ w ∈ (Cell.struct (Array.replicate arity v)).children, h.InGamut w := by
      intro w hw
      rw [(Array.mem_replicate.1 (Array.mem_toList_iff.1 hw)).2]
      exact hv
    refine ⟨keepsGamut_alloc hfields, ?_⟩
    rintro _ ⟨⟩
    exact inGamut_alloc hfields nofun rfl

/-! ### What is looked up -/

theorem InGamut.item (hv : h.InGamut (.list r)) : ∀ w ∈ h.items r, h.InGamut w :=
  fun _ hw => hv.inside (mem_inside_list (Array.mem_toList_iff.2 hw))

theorem InGamut.entry (hv : h.InGamut (.dict r)) (hw : h.get? r key = some w) : h.InGamut w := by
  obtain ⟨e, he, rfl⟩ := exists_entry_of_get? hw
  exact hv.inside (mem_inside_dict (Array.mem_toList_iff.2 he)).2

theorem InGamut.field {i : Nat} (hv : h.InGamut (.struct r)) (hw : h.field r i = .ok w) :
    h.InGamut w :=
  hv.inside (mem_inside_struct (Array.mem_toList_iff.2 (mem_fields_of_field hw)))

end EventScript.Heap
