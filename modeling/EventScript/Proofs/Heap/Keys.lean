import EventScript.Proofs.Codec.Decoded
import EventScript.Proofs.ContainerStores
import EventScript.Proofs.Heap.Kinds
import EventScript.Proofs.Machine.Actions

/-!
Stored keys. As long as nothing is done to a container that a stored key is or holds, stored keys
stay what they were, and no dict comes to hold a key twice.
-/
namespace EventScript.Heap

open Datum

variable {h h' : Heap} {r s : Ref} {v w key value : Value} {vs : List Value} {cell : Cell}
  {change : Cell → Cell} {eq : Value → Value → Bool} {es : Array (Value × Value)}

/-! ### Keys that are put -/

/-- No key equals a later one. -/
def KeysDistinct (eq : Value → Value → Bool) (es : Array (Value × Value)) : Prop :=
  es.toList.Pairwise fun e f => eq e.1 f.1 = false

theorem keysDistinct_putEntry (hes : KeysDistinct eq es) (key value : Value) :
    KeysDistinct eq (putEntry eq es key value) := by
  unfold putEntry
  split
  · rename_i i _
    -- The entry that gets the value keeps its key.
    have hkeys : (es.modify i fun e => (e.1, value)).toList.map Prod.fst =
        es.toList.map Prod.fst := by
      apply List.ext_getElem?
      intro j
      simp only [List.getElem?_map, Array.getElem?_toList, Array.getElem?_modify]
      split
      · cases es[j]? <;> rfl
      · rfl
    rw [KeysDistinct, ← List.pairwise_map (f := Prod.fst) (R := fun k l => eq k l = false)] at hes ⊢
    rwa [hkeys]
  · rename_i hnone
    rw [KeysDistinct, Array.toList_push]
    refine List.pairwise_append.2 ⟨hes, List.pairwise_singleton _ _, fun e he f hf => ?_⟩
    cases List.mem_singleton.1 hf
    exact Array.findIdx?_eq_none_iff.1 hnone e (Array.mem_toList_iff.1 he)

theorem keysDistinct_putEntries (eq : Value → Value → Bool) (es : Array (Value × Value)) :
    KeysDistinct eq (putEntries eq es) :=
  Array.foldl_induction (fun _ es => KeysDistinct eq es) .nil fun _ _ hes =>
    keysDistinct_putEntry hes _ _

theorem key_of_mem_putEntry {e : Value × Value} (he : e ∈ putEntry eq es key value) :
    (∃ f ∈ es, e.1 = f.1) ∨ e.1 = key := by
  unfold putEntry at he
  split at he
  · obtain ⟨i, hi, rfl⟩ := Array.mem_iff_getElem.1 he
    rw [Array.size_modify] at hi
    refine .inl ⟨es[i], Array.getElem_mem hi, ?_⟩
    rw [Array.getElem_modify]
    split <;> rfl
  · exact (Array.mem_push.1 he).imp (fun he => ⟨e, he, rfl⟩) (congrArg Prod.fst)

/-! ### Heaps in order -/

/-- Handles are of their kind, no container lies inside itself, and no dict holds a key twice. -/
structure Orderly (h : Heap) : Prop where
  wellFormed : h.WellFormed
  holdsGenuine : h.HoldsGenuine
  keysApart : h.KeysApart

theorem orderly_empty : Heap.empty.Orderly where
  wellFormed := wellFormed_empty
  holdsGenuine r v hv := by simp [children, empty] at hv
  keysApart r := by simp [entries, empty]

namespace Orderly

theorem hasDistinctKeys (hh : h.Orderly) (v : Value) : (h.datum v).Everywhere HasDistinctKeys :=
  hh.wellFormed.acyclic.hasDistinctKeys_iff.2 fun r _ => hh.keysApart r

theorem same_iff (hh : h.Orderly) (v w : Value) :
    h.same v w = true ↔ (h.datum v).Alike (h.datum w) :=
  hh.keysApart.same_iff hh.wellFormed.acyclic v w

/-- Values that keep their data stay different. -/
theorem same_eq_false (hh : h.Orderly) (ha : h'.Acyclic) (hv : h'.datum v = h.datum v)
    (hw : h'.datum w = h.datum w) (hne : h.same v w = false) : h'.same v w = false := by
  rw [Bool.eq_false_iff, ne_eq, ha.same_iff (hv ▸ hh.hasDistinctKeys v) (hw ▸ hh.hasDistinctKeys w),
    hv, hw, ← hh.same_iff, hne]
  exact Bool.false_ne_true

/-- Keys that keep their data stay apart. -/
theorem keysApart_of_datum_eq (hh : h.Orderly) (ha : h'.Acyclic)
    (hkeys : ∀ r, ∀ e ∈ h'.entries r, h'.datum e.1 = h.datum e.1)
    (hdistinct : ∀ r, KeysDistinct h.same (h'.entries r)) : h'.KeysApart := fun r =>
  (hdistinct r).imp_of_mem fun he hf hne =>
    hh.same_eq_false ha (hkeys r _ (Array.mem_toList_iff.1 he))
      (hkeys r _ (Array.mem_toList_iff.1 hf)) hne

end Orderly

/-! ### New containers -/

theorem entries_alloc (h : Heap) (cell : Cell) (r : Ref) :
    (h.alloc cell).2.entries r = h.entries r ∨ cell = .dict ((h.alloc cell).2.entries r) := by
  unfold entries alloc
  rw [Array.getElem?_push]
  by_cases hr : r = h.cells.size
  · rw [if_pos hr]
    cases cell <;> simp [hr]
  · rw [if_neg hr]
    exact .inl rfl

namespace Orderly

theorem alloc (hh : h.Orderly) (hcell : ∀ w ∈ cell.children, h.Genuine w)
    (hdistinct : ∀ es, cell = .dict es → KeysDistinct h.same es) : (h.alloc cell).2.Orderly := by
  have hwell := hh.wellFormed.alloc fun w hw => (hcell w hw).inRange
  refine ⟨hwell, hh.holdsGenuine.alloc hcell, hh.keysApart_of_datum_eq hwell.acyclic ?_ ?_⟩
  · intro r e he
    refine (extends_alloc h cell).datum_eq hh.wellFormed ?_
    rcases entries_alloc h cell r with hold | hnew
    · rw [hold] at he
      exact hh.wellFormed.closed.inRange (mem_inside_dict (Array.mem_toList_iff.2 he)).1
    · rw [hnew] at hcell
      exact (forall_children_dict.1 hcell e he).1.inRange
  · intro r
    rcases entries_alloc h cell r with hold | hnew
    · rw [hold]
      exact hh.keysApart r
    · exact hdistinct _ hnew

theorem newList (hh : h.Orderly) {items : Array Value} (hitems : ∀ w ∈ items, h.Genuine w) :
    (h.newList items).2.Orderly :=
  hh.alloc (by simpa [Cell.children] using hitems) nofun

theorem newStruct (hh : h.Orderly) {fields : Array Value} (hfields : ∀ w ∈ fields, h.Genuine w) :
    (h.newStruct fields).2.Orderly :=
  hh.alloc (by simpa [Cell.children] using hfields) nofun

theorem newFilled (hh : h.Orderly) {arity : Nat} {fill : Value} (hfill : h.Genuine fill) :
    (h.newFilled arity fill).2.Orderly := by
  unfold Heap.newFilled
  split
  · exact hh
  · refine hh.newStruct fun w hw => ?_
    rw [(Array.mem_replicate.1 hw).2]
    exact hfill

theorem newDict (hh : h.Orderly) (hes : ∀ e ∈ es, h.Genuine e.1 ∧ h.Genuine e.2) :
    (h.newDict es).2.Orderly := by
  refine hh.alloc (forall_children_dict.2 (forall_putEntries hes)) fun _ heq => ?_
  cases heq
  exact keysDistinct_putEntries _ _

end Orderly

/-! ### Data that are stored, contents first -/

/-- The heap is in order and the values are genuine in it. -/
structure Offers (h : Heap) (vs : List Value) : Prop where
  orderly : h.Orderly
  genuine : ∀ v ∈ vs, h.Genuine v

/-- A value in a container that has just been made. -/
theorem offers_alloc (hh : (h.alloc cell).2.Orderly) (hr : v.ref? = some h.cells.size)
    (hkind : v.kind = cell.kind) : (h.alloc cell).2.Offers [v] := by
  refine ⟨hh, List.forall_mem_singleton.2 fun s hs => ?_⟩
  cases hr.symm.trans hs
  simp [kindAt?, Heap.alloc, hkind]

theorem offers_storeItems {ds : List Datum} (hh : h.Orderly)
    (ih : ∀ d ∈ ds, ∀ h : Heap, h.Orderly → (h.store d).2.Offers [(h.store d).1]) :
    (h.storeItems ds).2.Offers (h.storeItems ds).1 := by
  induction ds generalizing h with
  | nil => exact ⟨hh, by simp [storeItems]⟩
  | cons d ds ihs =>
    have ih := List.forall_mem_cons.1 ih
    have hd := ih.1 h hh
    have hds := ihs hd.orderly ih.2
    have hgrown : (h.storeItems (d :: ds)).2.Extends (h.store d).2 :=
      (storeItems_spec (fun d _ h hh => hh.store d) hd.orderly.wellFormed).2.1
    have hv := (hd.genuine _ List.mem_cons_self).mono hgrown.keepsKinds
    exact ⟨hds.orderly, List.forall_mem_cons.2 ⟨hv, hds.genuine⟩⟩

theorem offers_storeEntries {es : List (Datum × Datum)} (hh : h.Orderly)
    (ih : ∀ e ∈ es, ∀ h : Heap, h.Orderly →
      (h.store e.1).2.Offers [(h.store e.1).1] ∧ (h.store e.2).2.Offers [(h.store e.2).1]) :
    (h.storeEntries es).2.Orderly ∧ ∀ e ∈ (h.storeEntries es).1,
      (h.storeEntries es).2.Genuine e.1 ∧ (h.storeEntries es).2.Genuine e.2 := by
  induction es generalizing h with
  | nil => exact ⟨hh, by simp [storeEntries]⟩
  | cons e es ihs =>
    have ih := List.forall_mem_cons.1 ih
    have hk := (ih.1 h hh).1
    have hv := (ih.1 _ hk.orderly).2
    obtain ⟨horderly, hgenuine⟩ := ihs hv.orderly ih.2
    have hgrown : (h.storeEntries (e :: es)).2.Extends ((h.store e.1).2.store e.2).2 :=
      (storeEntries_spec (fun e _ h hh => ⟨hh.store e.1, hh.store e.2⟩) hv.orderly.wellFormed).2.1
    have hgrown' := hgrown.trans (hk.orderly.wellFormed.store e.2).grown
    refine ⟨horderly, List.forall_mem_cons.2 ⟨⟨?_, ?_⟩, hgenuine⟩⟩
    · exact (hk.genuine _ List.mem_cons_self).mono hgrown'.keepsKinds
    · exact (hv.genuine _ List.mem_cons_self).mono hgrown.keepsKinds

theorem Orderly.store (hh : h.Orderly) {d : Datum} (hd : d.Everywhere HasDistinctKeys) :
    (h.store d).2.Offers [(h.store d).1] := by
  induction d generalizing h with
  | list items ih =>
    have hitems := offers_storeItems hh fun d hmem _ hh =>
      ih d hmem hh ((everywhere_list.1 hd).2 d hmem)
    exact offers_alloc (hitems.orderly.newList (by simpa using hitems.genuine)) rfl rfl
  | struct fields ih =>
    have hfields := offers_storeItems hh fun d hmem _ hh =>
      ih d hmem hh ((everywhere_struct.1 hd).2 d hmem)
    exact offers_alloc (hfields.orderly.newStruct (by simpa using hfields.genuine)) rfl rfl
  | dict entries ih =>
    obtain ⟨hkeys, hes⟩ := everywhere_dict.1 hd
    obtain ⟨horderly, hgenuine⟩ := offers_storeEntries hh fun e hmem _ hh =>
      ⟨(ih e hmem).1 hh (hes e hmem).1, (ih e hmem).2 hh (hes e hmem).2⟩
    have hdata : (h.storeEntries entries).1.map _ = entries :=
      (storeEntries_spec (fun e _ h hh => ⟨hh.store e.1, hh.store e.2⟩) hh.wellFormed).2.2.2
    have hdistinct := (horderly.wellFormed.acyclic.keysDiffer_iff
      fun e _ => horderly.hasDistinctKeys e.1).1 (hdata ▸ hkeys)
    have hchildren := forall_children_dict.2 fun e he => hgenuine e (List.mem_toArray.1 he)
    refine offers_alloc (horderly.alloc hchildren ?_) rfl rfl
    rintro _ ⟨⟩
    exact hdistinct
  | _ => exact ⟨hh, List.forall_mem_singleton.2 (genuine_of_ref?_eq_none rfl)⟩

/-! ### Changed containers -/

/-- A container that a stored key is or holds. -/
def InKey (h : Heap) (r : Ref) : Prop := ∃ s, ∃ e ∈ h.entries s, h.Leads e.1 r

/-- Values keep their data if all the containers that they lead to stay as they are. -/
theorem datum_modify (hcells : ∀ s, h.Leads v s → (h.modify r change).cells[s]? = h.cells[s]?) :
    (h.modify r change).datum v = h.datum v := by
  rw [datum, depth, size_modify]
  refine datumTo_congr (P := fun v => ∀ s, h.Leads v s →
    (h.modify r change).cells[s]? = h.cells[s]?) (fun v s hs hv => ?_)
    (fun v w hw hv s hlead => ?_) hcells _
  · exact hv s ⟨s, hs, .refl⟩
  · obtain ⟨t, ht, hw⟩ := mem_children_of_mem_inside hw
    exact hv s (.of_child ht hw hlead)

theorem entries_modify (hdict : ∀ es, change (.dict es) = .dict es)
    (hkind : ∀ cell, (change cell).kind = cell.kind) (s : Ref) :
    (h.modify r change).entries s = h.entries s := by
  unfold entries modify
  rw [Array.getElem?_modify]
  by_cases hs : r = s
  · rw [if_pos hs]
    cases hcell : h.cells[s]? with
    | none => rfl
    | some cell =>
      have hkind := hkind cell
      rw [Option.map_some]
      cases cell with
      | dict es => rw [hdict]
      | _ =>
        -- A container of another kind does not turn into a dict.
        split
        · rename_i hnew
          rw [Option.some.inj hnew] at hkind
          cases hkind
        · rfl
  · rw [if_neg hs]

theorem entries_setEntries (h : Heap) (r s : Ref) (es : Array (Value × Value)) :
    (h.modify r (.setEntries es)).entries s = h.entries s ∨
      s = r ∧ (h.modify r (.setEntries es)).entries s = es := by
  unfold entries modify
  rw [Array.getElem?_modify]
  by_cases hs : r = s
  · rw [if_pos hs]
    cases hcell : h.cells[s]? with
    | none => exact .inl rfl
    | some cell =>
      cases cell with
      | dict fs => exact .inr ⟨hs.symm, rfl⟩
      | _ => exact .inl rfl
  · rw [if_neg hs]
    exact .inl rfl

/-- Stored keys are not touched. -/
def LeavesKeys (h h' : Heap) : Prop := ∀ r, h.InKey r → h'.cells[r]? = h.cells[r]?

theorem WellFormed.lt_of_leads (hh : h.WellFormed) (hv : h.InRange v) (hlead : h.Leads v r) :
    r < h.cells.size := by
  obtain ⟨s, hs, hpath⟩ := hlead
  rcases hpath.cases_tail with rfl | ⟨t, _, w, hw, hr⟩
  · exact hv _ hs
  · exact hh.closed t w hw r hr

theorem Extends.leavesKeys (hx : h'.Extends h) (hh : h.WellFormed) : h.LeavesKeys h' := by
  rintro r ⟨s, e, he, hlead⟩
  have hrange := hh.closed.inRange (mem_inside_dict (Array.mem_toList_iff.2 he)).1
  exact hx.cell_eq (hh.lt_of_leads hrange hlead)

namespace Orderly

theorem modify (hh : h.Orderly) (hc : h.Admits r vs change) (hvs : ∀ w ∈ vs, h.Genuine w)
    (hkind : ∀ cell, (change cell).kind = cell.kind) (hl : h.LeavesKeys (h.modify r change))
    (hkeys : ∀ s, ∀ e ∈ (h.modify r change).entries s,
      (∃ f ∈ h.entries s, e.1 = f.1) ∨ h.reaches e.1 r = false)
    (hdistinct : ∀ s, KeysDistinct h.same ((h.modify r change).entries s)) :
    (h.modify r change).Orderly := by
  have hwell := hh.wellFormed.modify hc
  refine ⟨hwell, hh.holdsGenuine.modify hc hkind hvs,
    hh.keysApart_of_datum_eq hwell.acyclic (fun s e he => datum_modify fun t ht => ?_) hdistinct⟩
  rcases hkeys s e he with ⟨f, hf, heq⟩ | hapart
  · exact hl t ⟨s, f, hf, heq ▸ ht⟩
  · have hne : t ≠ r := by
      rintro rfl
      exact not_leads_of_reaches hapart ht
    rw [Heap.modify, Array.getElem?_modify, if_neg hne.symm]

theorem push (hh : h.Orderly) (hv : h.Genuine v) (hl : h.LeavesKeys (h.push r v).2) :
    (h.push r v).2.Orderly := by
  unfold Heap.push at hl ⊢
  split
  · exact hh
  · rename_i hapart
    rw [if_neg hapart] at hl
    have hentries : ∀ s, (h.modify r (.push v)).entries s = h.entries s :=
      entries_modify (fun _ => rfl) (by simp)
    refine hh.modify (admits_push hv.inRange (by simpa using hapart)) (by simpa using hv) (by simp)
      hl (fun s e he => .inl ⟨e, hentries s ▸ he, rfl⟩) fun s => ?_
    rw [hentries s]
    exact hh.keysApart s

theorem setField (hh : h.Orderly) {i : Nat} (hv : h.Genuine v)
    (hl : h.LeavesKeys (h.setField r i v).2) : (h.setField r i v).2.Orderly := by
  unfold Heap.setField at hl ⊢
  split
  · exact hh
  · rename_i hapart
    rw [if_neg hapart] at hl
    split
    · rename_i hi
      rw [if_pos hi] at hl
      have hentries : ∀ s, (h.modify r (.setField i v)).entries s = h.entries s :=
        entries_modify (fun _ => rfl) (by simp)
      refine hh.modify (admits_setField hv.inRange (by simpa using hapart)) (by simpa using hv)
        (by simp) hl (fun s e he => .inl ⟨e, hentries s ▸ he, rfl⟩) fun s => ?_
      rw [hentries s]
      exact hh.keysApart s
    · exact hh

theorem insert (hh : h.Orderly) (hkey : h.Genuine key) (hvalue : h.Genuine value)
    (hl : h.LeavesKeys (h.insert r key value).2) : (h.insert r key value).2.Orderly := by
  unfold Heap.insert at hl ⊢
  split
  · exact hh
  · rename_i hapart
    rw [if_neg hapart] at hl
    rw [Bool.or_eq_true, not_or, Bool.not_eq_true, Bool.not_eq_true] at hapart
    have hc := admits_insert hkey.inRange hvalue.inRange hapart.1 hapart.2
    have hentries s := entries_setEntries h r s (putEntry h.same (h.entries r) key value)
    refine hh.modify hc (by simp [hkey, hvalue]) (by simp) hl (fun s e he => ?_) fun s => ?_
    · rcases hentries s with hold | ⟨rfl, hnew⟩
      · exact .inl ⟨e, hold ▸ he, rfl⟩
      · rw [hnew] at he
        rcases key_of_mem_putEntry he with hold | heq
        · exact .inl hold
        · exact .inr (heq ▸ hapart.1)
    · rcases hentries s with hold | ⟨rfl, hnew⟩
      · rw [hold]
        exact hh.keysApart s
      · rw [hnew]
        exact keysDistinct_putEntry (hh.keysApart _) key value

/-- A heap in order stays so if an action is given genuine handles and leaves stored keys alone. -/
theorem perform (hh : h.Orderly) {action : Action} (hgiven : ∀ v ∈ action.operands, h.Genuine v)
    (hl : h.LeavesKeys (action.perform h)) : (action.perform h).Orderly := by
  have hdirect {h : Heap} (hh : h.Orderly) {action : Action} (hdirect : action.IsDirect)
      (hgiven : ∀ v ∈ action.operands, h.Genuine v) (hl : h.LeavesKeys (action.perform h)) :
      (action.perform h).Orderly := by
    cases action with
    | newList items => exact hh.newList fun v hv => hgiven v (Array.mem_toList_iff.2 hv)
    | push r v => exact hh.push (hgiven v (by simp [Action.operands])) hl
    | newDict entries => exact hh.newDict (forall_children_dict.1 hgiven)
    | insert r key value =>
      exact hh.insert (hgiven key (by simp [Action.operands]))
        (hgiven value (by simp [Action.operands])) hl
    | newStruct fields => exact hh.newStruct fun v hv => hgiven v (Array.mem_toList_iff.2 hv)
    | newFilled arity fill => exact hh.newFilled (hgiven fill (by simp [Action.operands]))
    | setField r i v => exact hh.setField (hgiven v (by simp [Action.operands])) hl
    | decode reader =>
      simp only [Action.perform]
      split
      · rename_i d hd
        have hfaithful := Decoder.reads_datumTo _ reader d _ (Prod.ext hd rfl)
        exact (hh.store (hfaithful.imp fun _ h => h.hasDistinctKeys)).orderly
      · exact hh
    | native => exact hdirect.elim
  cases action with
  | native op s =>
    generalize hresult : Action.perform h (.native op s) = h' at hl ⊢
    have hacted : h.ActedOn s.frame.stack h' := hresult ▸ op.actedOn { s with world.heap := h }
    cases hacted with
    | not => exact hh
    | once action direct operands =>
      refine hdirect hh direct (fun v hv => ?_) hl
      exact (operands v hv).elim (hgiven v) genuine_of_ref?_eq_none
  | _ => exact hdirect hh trivial hgiven hl

end Orderly

end EventScript.Heap
