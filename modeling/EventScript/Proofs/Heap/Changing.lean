import EventScript.Proofs.Heap.Reaching
import EventScript.Proofs.Heap.Storing

/-!
Changes of containers. A container may get what does not lead back to it: the heap stays free of
cycles, and all values that had a place keep it. Each operation of the heap changes it in this way.
-/
namespace EventScript.Heap

open Relation

variable {h h' : Heap} {v w key value : Value} {vs : List Value} {r s : Ref}

/-- The new edges all begin at one container, to which no end of theirs leads. -/
theorem Acyclic.extend (ha : h.Acyclic) (new : Ref → Prop)
    (hedge : ∀ s t, h'.Contains s t → h.Contains s t ∨ s = r ∧ new t)
    (hnew : ∀ t, new t → ¬ReflTransGen h.Contains t r) : h'.Acyclic := by
  -- A path goes over old edges, or once over a new one: it does not come back to where those begin.
  have hpath {s t : Ref} (hst : TransGen h'.Contains s t) : TransGen h.Contains s t ∨
      ReflTransGen h.Contains s r ∧ ∃ u, new u ∧ ReflTransGen h.Contains u t := by
    induction hst with
    | single hst =>
      rcases hedge _ _ hst with hold | ⟨rfl, hu⟩
      · exact .inl (.single hold)
      · exact .inr ⟨.refl, _, hu, .refl⟩
    | tail _ htu ih =>
      rcases hedge _ _ htu with hold | ⟨rfl, hu⟩
      · rcases ih with ih | ⟨hsr, u, hu, hut⟩
        · exact .inl (ih.tail hold)
        · exact .inr ⟨hsr, u, hu, hut.tail hold⟩
      · rcases ih with ih | ⟨_, t, ht, htr⟩
        · exact .inr ⟨ih.to_reflTransGen, _, hu, .refl⟩
        · exact absurd htr (hnew t ht)
  intro s hss
  rcases hpath hss with hold | ⟨hsr, u, hu, hus⟩
  · exact ha s hold
  · exact hnew u hu (hus.trans hsr)

/-! ### One container changed -/

variable {change : Cell → Cell}

theorem size_modify (h : Heap) (r : Ref) (change : Cell → Cell) :
    (h.modify r change).cells.size = h.cells.size := Array.size_modify

theorem children_modify_of_ne (hne : s ≠ r) : (h.modify r change).children s = h.children s := by
  rw [children, children, modify, Array.getElem?_modify, if_neg (Ne.symm hne)]

theorem inRange_modify : (h.modify r change).InRange v ↔ h.InRange v := by
  rw [InRange, InRange, size_modify]

/-- The container gets nothing but what has a place in the heap and does not lead to it. -/
structure Admits (h : Heap) (r : Ref) (vs : List Value) (change : Cell → Cell) : Prop where
  children : ∀ w ∈ (h.modify r change).children r, w ∈ h.children r ∨ w ∈ vs
  inRange : ∀ w ∈ vs, h.InRange w
  apart : ∀ w ∈ vs, h.reaches w r = false

theorem WellFormed.modify (hh : h.WellFormed) (hc : h.Admits r vs change) :
    (h.modify r change).WellFormed := by
  have hheld (s : Ref) (w : Value) (hw : w ∈ (h.modify r change).children s) :
      w ∈ h.children s ∨ s = r ∧ w ∈ vs := by
    by_cases hs : s = r
    · subst hs
      exact (hc.children w hw).imp_right fun hw => ⟨rfl, hw⟩
    · rw [children_modify_of_ne hs] at hw
      exact .inl hw
  refine ⟨fun s w hw => inRange_modify.2 ?_, ?_⟩
  · rcases hheld s w hw with hw | ⟨_, hw⟩
    · exact hh.closed s w hw
    · exact hc.inRange w hw
  · refine hh.acyclic.extend (r := r) (fun t => ∃ w ∈ vs, w.ref? = some t) ?_ ?_
    · rintro s t ⟨w, hw, ht⟩
      exact (hheld s w hw).imp (fun hw => ⟨w, hw, ht⟩) fun ⟨hs, hw⟩ => ⟨hs, w, hw, ht⟩
    · rintro t ⟨w, hw, ht⟩ hpath
      exact not_leads_of_reaches (hc.apart w hw) ⟨t, ht, hpath⟩

/-- What the changed container holds, by what it held. -/
theorem children_modify_self (hr : h.cells[r]? = some cell) :
    (h.modify r change).children r = (change cell).children := by
  simp [children, modify, Array.getElem?_modify, hr]

theorem admits_of_cells (hchange : ∀ cell, h.cells[r]? = some cell →
      ∀ w ∈ (change cell).children, w ∈ cell.children ∨ w ∈ vs)
    (hrange : ∀ w ∈ vs, h.InRange w) (hapart : ∀ w ∈ vs, h.reaches w r = false) :
    h.Admits r vs change where
  children w hw := by
    cases hr : h.cells[r]? with
    | none =>
      have hlt := lt_size_of_mem_children hw
      rw [size_modify] at hlt
      exact absurd hlt (by simpa using hr)
    | some cell =>
      rw [children_modify_self hr] at hw
      rw [children, hr]
      exact hchange cell hr w hw
  inRange := hrange
  apart := hapart

/-! ### Entries that are put -/

/-- What holds of the keys and values there are and of those put holds of all. -/
theorem forall_putEntry {eq : Value → Value → Bool} {P : Value → Prop} {es : Array (Value × Value)}
    (hes : ∀ e ∈ es, P e.1 ∧ P e.2) (hkey : P key) (hvalue : P value) :
    ∀ e ∈ putEntry eq es key value, P e.1 ∧ P e.2 := by
  intro e he
  unfold putEntry at he
  split at he
  · obtain ⟨i, hi, rfl⟩ := Array.mem_iff_getElem.1 he
    rw [Array.size_modify] at hi
    rw [Array.getElem_modify]
    split
    · exact ⟨(hes _ (Array.getElem_mem hi)).1, hvalue⟩
    · exact hes _ (Array.getElem_mem hi)
  · rcases Array.mem_push.1 he with he | rfl
    · exact hes e he
    · exact ⟨hkey, hvalue⟩

theorem forall_putEntries {eq : Value → Value → Bool} {P : Value → Prop}
    {es : Array (Value × Value)} (hes : ∀ e ∈ es, P e.1 ∧ P e.2) :
    ∀ e ∈ putEntries eq es, P e.1 ∧ P e.2 := by
  rw [putEntries]
  refine Array.foldl_induction
    (motive := fun _ (es : Array (Value × Value)) => ∀ e ∈ es, P e.1 ∧ P e.2) (by simp) ?_
  intro i es' hes'
  have he := hes _ (Array.getElem_mem i.isLt)
  exact forall_putEntry hes' he.1 he.2

theorem mem_children_dict {es : Array (Value × Value)} :
    w ∈ (Cell.dict es).children ↔ ∃ e ∈ es, w = e.1 ∨ w = e.2 := by
  simp only [Cell.children, List.mem_flatMap, Array.mem_toList_iff, List.mem_cons,
    List.not_mem_nil, or_false]

theorem forall_children_dict {P : Value → Prop} {es : Array (Value × Value)} :
    (∀ w ∈ (Cell.dict es).children, P w) ↔ ∀ e ∈ es, P e.1 ∧ P e.2 := by
  simp only [mem_children_dict]
  constructor
  · exact fun hP e he => ⟨hP _ ⟨e, he, .inl rfl⟩, hP _ ⟨e, he, .inr rfl⟩⟩
  · rintro hP w ⟨e, he, rfl | rfl⟩
    · exact (hP e he).1
    · exact (hP e he).2

/-! ### What containers admit -/

theorem admits_push (hv : h.InRange v) (hapart : h.reaches v r = false) :
    h.Admits r [v] (.push v) := by
  refine admits_of_cells ?_ (by simpa using hv) (by simpa using hapart)
  intro cell _ w hw
  cases cell with
  | list items => simpa [Cell.push, Cell.children] using hw
  | _ => exact .inl hw

theorem admits_setField {i : Nat} (hv : h.InRange v) (hapart : h.reaches v r = false) :
    h.Admits r [v] (.setField i v) := by
  refine admits_of_cells ?_ (by simpa using hv) (by simpa using hapart)
  intro cell _ w hw
  cases cell with
  | struct fields =>
    have hw : w ∈ fields.setIfInBounds i v := Array.mem_toList_iff.1 hw
    rcases Array.mem_or_eq_of_mem_setIfInBounds hw with hw | rfl
    · exact .inl (by simpa [Cell.children] using hw)
    · exact .inr List.mem_cons_self
  | _ => exact .inl hw

/-- What is put is what was there, the key and the value. -/
theorem admits_insert (hkey : h.InRange key) (hvalue : h.InRange value)
    (hkey' : h.reaches key r = false) (hvalue' : h.reaches value r = false) :
    h.Admits r [key, value] (.setEntries (putEntry h.same (h.entries r) key value)) := by
  refine admits_of_cells ?_ (by simp [hkey, hvalue]) (by simp [hkey', hvalue'])
  intro cell hr w hw
  cases cell with
  | dict es =>
    have hes : h.entries r = es := by rw [entries, hr]
    rw [hes] at hw
    let P (w : Value) : Prop := w ∈ (Cell.dict es).children ∨ w ∈ [key, value]
    have hold : ∀ e ∈ es, P e.1 ∧ P e.2 := forall_children_dict.1 fun w hw => .inl hw
    have hput : ∀ e ∈ putEntry h.same es key value, P e.1 ∧ P e.2 :=
      forall_putEntry hold (.inr (by simp)) (.inr (by simp))
    exact forall_children_dict (P := P).2 hput w hw
  | _ => exact .inl hw

/-! ### The operations -/

/-- The heap went on to another, in which everything that had a place has one. -/
structure GoesOn (h h' : Heap) : Prop where
  wellFormed : h'.WellFormed
  size_le : h.cells.size ≤ h'.cells.size

theorem GoesOn.inRange (hg : h.GoesOn h') (hv : h.InRange v) : h'.InRange v := fun r hr =>
  Nat.lt_of_lt_of_le (hv r hr) hg.size_le

namespace WellFormed

theorem goesOn (hh : h.WellFormed) : h.GoesOn h := ⟨hh, Nat.le_refl _⟩

theorem goesOn_modify (hh : h.WellFormed) (hc : h.Admits r vs change) :
    h.GoesOn (h.modify r change) := ⟨hh.modify hc, Nat.le_of_eq (size_modify h r change).symm⟩

theorem goesOn_alloc (hh : h.WellFormed) {cell : Cell} (hcell : ∀ w ∈ cell.children, h.InRange w) :
    h.GoesOn (h.alloc cell).2 := ⟨hh.alloc hcell, (extends_alloc h cell).size_le⟩

theorem goesOn_newList (hh : h.WellFormed) {items : Array Value}
    (hitems : ∀ w ∈ items, h.InRange w) : h.GoesOn (h.newList items).2 :=
  hh.goesOn_alloc (by simpa [Cell.children] using hitems)

theorem goesOn_newStruct (hh : h.WellFormed) {fields : Array Value}
    (hfields : ∀ w ∈ fields, h.InRange w) : h.GoesOn (h.newStruct fields).2 :=
  hh.goesOn_alloc (by simpa [Cell.children] using hfields)

theorem goesOn_newDict (hh : h.WellFormed) {es : Array (Value × Value)}
    (hes : ∀ e ∈ es, h.InRange e.1 ∧ h.InRange e.2) : h.GoesOn (h.newDict es).2 :=
  hh.goesOn_alloc (forall_children_dict.2 (forall_putEntries hes))

theorem goesOn_newFilled (hh : h.WellFormed) {arity : Nat} {fill : Value}
    (hfill : h.InRange fill) : h.GoesOn (h.newFilled arity fill).2 := by
  unfold newFilled
  split
  · exact hh.goesOn
  · refine hh.goesOn_newStruct fun w hw => ?_
    rw [(Array.mem_replicate.1 hw).2]
    exact hfill

theorem goesOn_push (hh : h.WellFormed) (hv : h.InRange v) : h.GoesOn (h.push r v).2 := by
  unfold push
  split
  · exact hh.goesOn
  · rename_i hapart
    exact hh.goesOn_modify (admits_push hv (by simpa using hapart))

theorem goesOn_setField (hh : h.WellFormed) {i : Nat} (hv : h.InRange v) :
    h.GoesOn (h.setField r i v).2 := by
  unfold setField
  split
  · exact hh.goesOn
  · rename_i hapart
    split
    · exact hh.goesOn_modify (admits_setField hv (by simpa using hapart))
    · exact hh.goesOn

theorem goesOn_insert (hh : h.WellFormed) (hkey : h.InRange key) (hvalue : h.InRange value) :
    h.GoesOn (h.insert r key value).2 := by
  unfold insert
  split
  · exact hh.goesOn
  · rename_i hapart
    rw [Bool.or_eq_true, not_or, Bool.not_eq_true, Bool.not_eq_true] at hapart
    exact hh.goesOn_modify (admits_insert hkey hvalue hapart.1 hapart.2)

theorem goesOn_store (hh : h.WellFormed) (d : Datum) : h.GoesOn (h.store d).2 :=
  ⟨(hh.store d).wellFormed, (hh.store d).grown.size_le⟩

end WellFormed

/-! ### What is answered -/

/-- What is found under a key is the value of an entry. -/
theorem exists_entry_of_get? (hget : h.get? r key = some v) : ∃ e ∈ h.entries r, e.2 = v := by
  unfold get? at hget
  split at hget
  · cases hget
  · obtain ⟨e, he, hv⟩ := Option.map_eq_some_iff.1 hget
    exact ⟨e, Array.mem_of_find?_eq_some he, hv⟩

theorem mem_fields_of_field {i : Nat} (hfield : h.field r i = .ok v) : v ∈ h.fields r := by
  unfold field at hfield
  split at hfield
  · cases hfield
    exact Array.mem_of_getElem? ‹_›
  · cases hfield

theorem inRange_newFilled {arity : Nat} {fill : Value} (hnew : (h.newFilled arity fill).1 = .ok v) :
    (h.newFilled arity fill).2.InRange v := by
  unfold newFilled at hnew ⊢
  split at hnew
  · cases hnew
  · rename_i harity
    rw [if_neg harity]
    cases hnew
    rintro r ⟨⟩
    simp [newStruct, alloc]

end EventScript.Heap
