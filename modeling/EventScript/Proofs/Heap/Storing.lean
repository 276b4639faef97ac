import EventScript.Proofs.Heap.Containment

/-!
New containers. They hold what is there already, so the heap stays free of cycles and all its values
keep their data; a datum that is stored is the datum of its value.
-/
namespace EventScript.Heap

open Relation

variable {h h' h'' : Heap} {v w : Value} {r s : Ref}

theorem Closed.inRange (hc : h.Closed) (hw : w ∈ h.inside v) : h.InRange w := by
  obtain ⟨r, _, hw⟩ := mem_children_of_mem_inside hw
  exact hc r w hw

/-- Everything held has a place, and nothing holds itself. -/
structure WellFormed (h : Heap) : Prop where
  closed : h.Closed
  acyclic : h.Acyclic

theorem wellFormed_empty : Heap.empty.WellFormed := by
  have hnone : ∀ r, Heap.empty.children r = [] := fun r => by simp [children, empty]
  refine ⟨fun r v hv => ?_, fun r hr => ?_⟩
  · rw [hnone] at hv
    cases hv
  · obtain ⟨s, ⟨v, hv, _⟩, _⟩ := TransGen.head'_iff.1 hr
    rw [hnone] at hv
    cases hv

/-- A value is written out alike where all that it holds is in the same containers. -/
theorem datumTo_congr {P : Value → Prop}
    (hcell : ∀ v r, v.ref? = some r → P v → h'.cells[r]? = h.cells[r]?)
    (hinside : ∀ v, ∀ w ∈ h.inside v, P v → P w) (hv : P v) (n : Nat) :
    h'.datumTo n v = h.datumTo n v := by
  induction n generalizing v with
  | zero => cases v <;> rfl
  | succ n ih =>
    cases v with
    | list r =>
      have hitems : h'.items r = h.items r := by rw [items, items, hcell _ r rfl hv]
      have hmap : (h.items r).toList.map (h'.datumTo n) = (h.items r).toList.map (h.datumTo n) :=
        List.map_congr_left fun w hw => ih (hinside _ w (mem_inside_list hw) hv)
      rw [datumTo, datumTo, hitems, hmap]
    | struct r =>
      have hfields : h'.fields r = h.fields r := by rw [fields, fields, hcell _ r rfl hv]
      have hmap : (h.fields r).toList.map (h'.datumTo n) = (h.fields r).toList.map (h.datumTo n) :=
        List.map_congr_left fun w hw => ih (hinside _ w (mem_inside_struct hw) hv)
      rw [datumTo, datumTo, hfields, hmap]
    | dict r =>
      have hentries : h'.entries r = h.entries r := by rw [entries, entries, hcell _ r rfl hv]
      have hmap : ((h.entries r).toList.map fun e => (h'.datumTo n e.1, h'.datumTo n e.2)) =
          (h.entries r).toList.map fun e => (h.datumTo n e.1, h.datumTo n e.2) :=
        List.map_congr_left fun e he => by
          have he := mem_inside_dict he
          rw [ih (hinside _ _ he.1 hv), ih (hinside _ _ he.2 hv)]
      rw [datumTo, datumTo, hentries, hmap]
    | _ => rfl

/-- The containers of the one heap are in the other as they were. -/
def Extends (h' h : Heap) : Prop := ∃ cells, h'.cells = h.cells ++ cells

theorem Extends.refl (h : Heap) : h.Extends h := ⟨#[], by simp⟩

theorem Extends.trans (h₂ : h''.Extends h') (h₁ : h'.Extends h) : h''.Extends h := by
  obtain ⟨cells, hcells⟩ := h₁
  obtain ⟨cells', hcells'⟩ := h₂
  exact ⟨cells ++ cells', by rw [hcells', hcells, Array.append_assoc]⟩

theorem extends_alloc (h : Heap) (cell : Cell) : (h.alloc cell).2.Extends h := ⟨#[cell], rfl⟩

namespace Extends

theorem size_le (hx : h'.Extends h) : h.cells.size ≤ h'.cells.size := by
  obtain ⟨cells, hcells⟩ := hx
  rw [hcells, Array.size_append]
  omega

theorem cell_eq (hx : h'.Extends h) (hr : r < h.cells.size) : h'.cells[r]? = h.cells[r]? := by
  obtain ⟨cells, hcells⟩ := hx
  rw [hcells, Array.getElem?_append_left hr]

theorem inRange (hx : h'.Extends h) (hv : h.InRange v) : h'.InRange v := fun r hr =>
  Nat.lt_of_lt_of_le (hv r hr) hx.size_le

theorem datumTo_eq (hx : h'.Extends h) (hc : h.Closed) (hv : h.InRange v) (n : Nat) :
    h'.datumTo n v = h.datumTo n v :=
  datumTo_congr (fun _ _ hr hv => hx.cell_eq (hv _ hr)) (fun _ _ hw _ => hc.inRange hw) hv n

/-- Values keep their data. -/
theorem datum_eq (hx : h'.Extends h) (hh : h.WellFormed) (hv : h.InRange v) :
    h'.datum v = h.datum v := by
  have hle : h.depth ≤ h'.depth := Nat.succ_le_succ hx.size_le
  rw [datum, hx.datumTo_eq hh.closed hv, (hh.acyclic.fitsIn v).datumTo_eq hle, datum]

end Extends

theorem children_alloc_of_lt {cell : Cell} (hr : r < h.cells.size) :
    (h.alloc cell).2.children r = h.children r := by
  rw [children, children, (extends_alloc h cell).cell_eq hr]

theorem children_alloc_self (h : Heap) (cell : Cell) :
    (h.alloc cell).2.children h.cells.size = cell.children := by
  simp [children, alloc]

theorem WellFormed.alloc (hh : h.WellFormed) {cell : Cell}
    (hcell : ∀ v ∈ cell.children, h.InRange v) :
    (h.alloc cell).2.WellFormed := by
  have hx := extends_alloc h cell
  have hold : ∀ r, ∀ v ∈ (h.alloc cell).2.children r, h.InRange v := by
    intro r v hv
    rcases Nat.lt_or_ge r h.cells.size with hr | hr
    · rw [children_alloc_of_lt hr] at hv
      exact hh.closed r v hv
    · have hsize : (h.alloc cell).2.cells.size = h.cells.size + 1 := Array.size_push _
      have hlt : r < h.cells.size + 1 := hsize ▸ lt_size_of_mem_children hv
      have hr : r = h.cells.size := Nat.le_antisymm (Nat.le_of_lt_succ hlt) hr
      rw [hr, children_alloc_self] at hv
      exact hcell v hv
  refine ⟨fun r v hv => hx.inRange (hold r v hv), fun r hrr => ?_⟩
  -- Nothing holds the new container, so a cycle would lie among the old ones.
  have hstep {r s : Ref} (hr : r < h.cells.size) (hrs : (h.alloc cell).2.Contains r s) :
      s < h.cells.size ∧ h.Contains r s := by
    obtain ⟨v, hv, hs⟩ := hrs
    exact ⟨hold r v hv s hs, v, by rwa [children_alloc_of_lt hr] at hv, hs⟩
  have hr : r < h.cells.size := by
    obtain ⟨s, _, v, hv, hs⟩ := TransGen.tail'_iff.1 hrr
    exact hold s v hv r hs
  have hback : ∀ {s}, TransGen (h.alloc cell).2.Contains r s →
      s < h.cells.size ∧ TransGen h.Contains r s := by
    intro s hrs
    induction hrs with
    | single hrs => exact ⟨(hstep hr hrs).1, .single (hstep hr hrs).2⟩
    | tail _ hst ih => exact ⟨(hstep ih.1 hst).1, ih.2.tail (hstep ih.1 hst).2⟩
  exact hh.acyclic r (hback hrr).2

/-- The heap went on to another, in which the value has the datum. -/
structure Stored (h h' : Heap) (v : Value) (d : Datum) : Prop where
  wellFormed : h'.WellFormed
  grown : h'.Extends h
  inRange : h'.InRange v
  datum : h'.datum v = d

theorem inRange_of_ref?_eq_none (hv : v.ref? = none) : h.InRange v := fun r hr => by
  rw [hv] at hr
  cases hr

theorem stored_of_ref?_eq_none (hh : h.WellFormed) (hv : v.ref? = none) :
    Stored h h v (h.datum v) :=
  ⟨hh, .refl h, inRange_of_ref?_eq_none hv, rfl⟩

theorem storeItems_spec {ds : List Datum}
    (ih : ∀ d ∈ ds, ∀ h : Heap, h.WellFormed → Stored h (h.store d).2 (h.store d).1 d)
    (hh : h.WellFormed) : (h.storeItems ds).2.WellFormed ∧ (h.storeItems ds).2.Extends h ∧
      (∀ v ∈ (h.storeItems ds).1, (h.storeItems ds).2.InRange v) ∧
      (h.storeItems ds).1.map (h.storeItems ds).2.datum = ds := by
  induction ds generalizing h with
  | nil => exact ⟨hh, .refl h, by simp [storeItems], rfl⟩
  | cons d ds ihs =>
    have ih := List.forall_mem_cons.1 ih
    have hd := ih.1 h hh
    obtain ⟨hwell, hgrown, hrange, hdata⟩ := ihs ih.2 hd.wellFormed
    simp only [storeItems]
    refine ⟨hwell, hgrown.trans hd.grown, ?_, ?_⟩
    · exact List.forall_mem_cons.2 ⟨hgrown.inRange hd.inRange, hrange⟩
    · rw [List.map_cons, hgrown.datum_eq hd.wellFormed hd.inRange, hd.datum, hdata]

theorem storeEntries_spec {es : List (Datum × Datum)}
    (ih : ∀ e ∈ es, ∀ h : Heap, h.WellFormed →
      Stored h (h.store e.1).2 (h.store e.1).1 e.1 ∧ Stored h (h.store e.2).2 (h.store e.2).1 e.2)
    (hh : h.WellFormed) : (h.storeEntries es).2.WellFormed ∧ (h.storeEntries es).2.Extends h ∧
      (∀ e ∈ (h.storeEntries es).1,
        (h.storeEntries es).2.InRange e.1 ∧ (h.storeEntries es).2.InRange e.2) ∧
      ((h.storeEntries es).1.map fun e =>
        ((h.storeEntries es).2.datum e.1, (h.storeEntries es).2.datum e.2)) = es := by
  induction es generalizing h with
  | nil => exact ⟨hh, .refl h, by simp [storeEntries], rfl⟩
  | cons e es ihs =>
    have ih := List.forall_mem_cons.1 ih
    have hk := (ih.1 h hh).1
    have hv := (ih.1 _ hk.wellFormed).2
    obtain ⟨hwell, hgrown, hrange, hdata⟩ := ihs ih.2 hv.wellFormed
    have hgrown' := hgrown.trans hv.grown
    simp only [storeEntries]
    refine ⟨hwell, hgrown'.trans hk.grown, ?_, ?_⟩
    · exact List.forall_mem_cons.2
        ⟨⟨hgrown'.inRange hk.inRange, hgrown.inRange hv.inRange⟩, hrange⟩
    · rw [List.map_cons, hgrown'.datum_eq hk.wellFormed hk.inRange, hk.datum,
        hgrown.datum_eq hv.wellFormed hv.inRange, hv.datum, hdata]

/-! A new container of what was there before. -/

theorem WellFormed.stored_alloc (hh : h'.WellFormed) (hx : h'.Extends h) {cell : Cell} {d : Datum}
    (hcell : ∀ v ∈ cell.children, h'.InRange v) (hv : v.ref? = some h'.cells.size)
    (hd : (h'.alloc cell).2.datum v = d) : Stored h (h'.alloc cell).2 v d where
  wellFormed := hh.alloc hcell
  grown := (extends_alloc h' cell).trans hx
  inRange r hr := by
    have hsize : (h'.alloc cell).2.cells.size = h'.cells.size + 1 := Array.size_push _
    cases hv.symm.trans hr
    exact hsize ▸ Nat.lt_succ_self _
  datum := hd

theorem WellFormed.map_datum_alloc (hh : h.WellFormed) (cell : Cell) {vs : List Value}
    (hvs : ∀ v ∈ vs, h.InRange v) : vs.map (h.alloc cell).2.datum = vs.map h.datum :=
  List.map_congr_left fun v hv => (extends_alloc h cell).datum_eq hh (hvs v hv)

theorem WellFormed.stored_list (hh : h'.WellFormed) (hx : h'.Extends h) {vs : List Value}
    (hvs : ∀ v ∈ vs, h'.InRange v) : Stored h (h'.alloc (.list vs.toArray)).2
      (.list h'.cells.size) (.list (vs.map h'.datum)) := by
  have hcell : ∀ v ∈ (Cell.list vs.toArray).children, h'.InRange v := by
    simpa [Cell.children] using hvs
  have hitems : (h'.alloc (.list vs.toArray)).2.items h'.cells.size = vs.toArray := by
    simp [items, Heap.alloc]
  refine hh.stored_alloc hx hcell rfl ?_
  rw [(hh.alloc hcell).acyclic.datum_list, hitems, hh.map_datum_alloc _ hvs]

theorem WellFormed.stored_struct (hh : h'.WellFormed) (hx : h'.Extends h) {vs : List Value}
    (hvs : ∀ v ∈ vs, h'.InRange v) : Stored h (h'.alloc (.struct vs.toArray)).2
      (.struct h'.cells.size) (.struct (vs.map h'.datum)) := by
  have hcell : ∀ v ∈ (Cell.struct vs.toArray).children, h'.InRange v := by
    simpa [Cell.children] using hvs
  have hfields : (h'.alloc (.struct vs.toArray)).2.fields h'.cells.size = vs.toArray := by
    simp [fields, Heap.alloc]
  refine hh.stored_alloc hx hcell rfl ?_
  rw [(hh.alloc hcell).acyclic.datum_struct, hfields, hh.map_datum_alloc _ hvs]

theorem WellFormed.stored_dict (hh : h'.WellFormed) (hx : h'.Extends h)
    {es : List (Value × Value)} (hes : ∀ e ∈ es, h'.InRange e.1 ∧ h'.InRange e.2) :
    Stored h (h'.alloc (.dict es.toArray)).2 (.dict h'.cells.size)
      (.dict (es.map fun e => (h'.datum e.1, h'.datum e.2))) := by
  have hcell : ∀ v ∈ (Cell.dict es.toArray).children, h'.InRange v := by
    simp only [Cell.children, List.mem_flatMap]
    rintro v ⟨e, he, hv⟩
    have hv : v = e.1 ∨ v = e.2 := by simpa using hv
    rcases hv with rfl | rfl
    · exact (hes e he).1
    · exact (hes e he).2
  have hentries : (h'.alloc (.dict es.toArray)).2.entries h'.cells.size = es.toArray := by
    simp [entries, Heap.alloc]
  have hx' := extends_alloc h' (.dict es.toArray)
  have hmap : (es.map fun e => ((h'.alloc (.dict es.toArray)).2.datum e.1,
      (h'.alloc (.dict es.toArray)).2.datum e.2)) = es.map fun e => (h'.datum e.1, h'.datum e.2) :=
    List.map_congr_left fun e he => by
      rw [hx'.datum_eq hh (hes e he).1, hx'.datum_eq hh (hes e he).2]
  refine hh.stored_alloc hx hcell rfl ?_
  rw [(hh.alloc hcell).acyclic.datum_dict, hentries, hmap]

/-- A datum is stored as it is. -/
theorem WellFormed.store (hh : h.WellFormed) (d : Datum) :
    Stored h (h.store d).2 (h.store d).1 d := by
  induction d generalizing h with
  | list items ih =>
    obtain ⟨hwell, hgrown, hrange, hdata⟩ := storeItems_spec (fun d hd h hh => ih d hd hh) hh
    have := hwell.stored_list hgrown hrange
    rw [hdata] at this
    exact this
  | struct fields ih =>
    obtain ⟨hwell, hgrown, hrange, hdata⟩ := storeItems_spec (fun d hd h hh => ih d hd hh) hh
    have := hwell.stored_struct hgrown hrange
    rw [hdata] at this
    exact this
  | dict entries ih =>
    obtain ⟨hwell, hgrown, hrange, hdata⟩ := storeEntries_spec
      (fun e he h hh => ⟨(ih e he).1 hh, (ih e he).2 hh⟩) hh
    have := hwell.stored_dict hgrown hrange
    rw [hdata] at this
    exact this
  | _ => exact stored_of_ref?_eq_none hh rfl

end EventScript.Heap
