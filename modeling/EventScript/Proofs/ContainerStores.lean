import EventScript.Proofs.Heap.Changing
import EventScript.Proofs.Heap.Sameness

/-!
Stores into containers. A store is refused just if the container would come to hold itself or the
field does not exist, and nothing happens then; any other store changes one place of one container.
-/
namespace EventScript.Heap

variable {h h' : Heap} {r s : Ref} {v key value : Value} {cell : Cell} {α : Type}

/-- One container holds something else, and all others are as they were. -/
structure Replaces (h h' : Heap) (r : Ref) (cell : Cell) : Prop where
  objects : h'.objects = h.objects
  size : h'.cells.size = h.cells.size
  target : h'.cells[r]? = some cell
  others : ∀ s, s ≠ r → h'.cells[s]? = h.cells[s]?

theorem replaces_modify (hr : h.cells[r]? = some cell) (change : Cell → Cell) :
    h.Replaces (h.modify r change) r (change cell) where
  objects := rfl
  size := size_modify h r change
  target := by rw [modify, Array.getElem?_modify, if_pos rfl, hr, Option.map_some]
  others s hs := by rw [modify, Array.getElem?_modify, if_neg (Ne.symm hs)]

/-- A store into a container: when it is refused, and what the container is if it is not. -/
structure Stores (h : Heap) (r : Ref) (result : Except ContainerError α × Heap)
    (refused : ContainerError → Prop) (stored : α → Cell → Prop) : Prop where
  refused : ∀ e, result.1 = .error e ↔ refused e
  unchanged : ∀ e, result.1 = .error e → result.2 = h
  changed : ∀ a, result.1 = .ok a → ∃ cell, stored a cell ∧ h.Replaces result.2 r cell

namespace Stores

variable {refused : ContainerError → Prop} {stored : α → Cell → Prop}

theorem of_error {e : ContainerError} (h' : ∀ e', refused e' ↔ e' = e) :
    h.Stores r (.error e, h) refused stored where
  refused e' := by
    rw [h', Except.error.injEq, eq_comm]
  unchanged _ _ := rfl
  changed _ := nofun

theorem of_modify {a : α} {change : Cell → Cell} (hr : h.cells[r]? = some cell)
    (hrefused : ∀ e, ¬refused e) (hstored : stored a (change cell)) :
    h.Stores r (.ok a, h.modify r change) refused stored where
  refused e := ⟨nofun, fun he => absurd he (hrefused e)⟩
  unchanged _ := nofun
  changed a' ha := by
    cases ha
    exact ⟨_, hstored, replaces_modify hr change⟩

end Stores

/-! ### Lists and structs -/

theorem stores_push {items : Array Value} (hr : h.cells[r]? = some (.list items)) (v : Value) :
    h.Stores r (h.push r v) (fun e => e = .cycle .list ∧ h.Leads v r)
      (fun _ cell => cell = .list (items.push v)) := by
  rw [push]
  by_cases hlead : h.Leads v r
  · rw [if_pos (reaches_iff.2 hlead)]
    exact .of_error fun e => and_iff_left hlead
  · rw [if_neg (mt reaches_iff.1 hlead)]
    exact .of_modify hr (fun e he => hlead he.2) rfl

/-- A cycle is refused before a field that does not exist. -/
theorem stores_setField {fields : Array Value} (hr : h.cells[r]? = some (.struct fields)) (i : Nat)
    (v : Value) : h.Stores r (h.setField r i v)
      (fun e => e = .cycle .struct ∧ h.Leads v r ∨
        e = .index i fields.size ∧ ¬h.Leads v r ∧ ¬i < fields.size)
      (fun _ cell => ∃ hi : i < fields.size, cell = .struct (fields.set i v hi)) := by
  have hfields : h.fields r = fields := by rw [Heap.fields, hr]
  rw [setField, hfields]
  by_cases hlead : h.Leads v r
  · rw [if_pos (reaches_iff.2 hlead)]
    exact .of_error fun e => by simp [hlead]
  · rw [if_neg (mt reaches_iff.1 hlead)]
    by_cases hi : i < fields.size
    · rw [if_pos hi]
      refine .of_modify hr (fun e he => ?_) ⟨hi, ?_⟩
      · exact he.elim (fun he => hlead he.2) fun he => he.2.2 hi
      · rw [Cell.setField, Array.setIfInBounds, dif_pos hi]
    · rw [if_neg hi]
      exact .of_error fun e => by simp [hlead, hi]

/-! ### Dicts -/

/-- No dict holds a key twice, as long as stored keys stay what they are. -/
def KeysApart (h : Heap) : Prop :=
  ∀ r, (h.entries r).toList.Pairwise fun e f => h.same e.1 f.1 = false

/-- An entry comes into a dict, and the value of the key before is the answer. -/
inductive Enters (h : Heap) (es : Array (Value × Value)) (key value : Value) :
    Option Value → Array (Value × Value) → Prop where
  /-- The one entry with an equal key keeps its key and its place. -/
  | replaced {i : Nat} {k old : Value} (found : es[i]? = some (k, old))
      (equal : (h.datum k).Alike (h.datum key))
      (only : ∀ (j : Nat) e, es[j]? = some e → (h.datum e.1).Alike (h.datum key) → j = i) :
      Enters h es key value (some old) (es.setIfInBounds i (k, value))
  /-- There is none, and the new entry is the last. -/
  | added (unequal : ∀ e ∈ es, ¬(h.datum e.1).Alike (h.datum key)) :
      Enters h es key value none (es.push (key, value))

theorem KeysApart.same_iff (hk : h.KeysApart) (ha : h.Acyclic) (v w : Value) :
    h.same v w = true ↔ (h.datum v).Alike (h.datum w) :=
  ha.same_iff (ha.hasDistinctKeys_iff.2 fun r _ => hk r) (ha.hasDistinctKeys_iff.2 fun r _ => hk r)

/-- An entry with the key is the only one. -/
theorem KeysApart.eq_of_alike (hk : h.KeysApart) (ha : h.Acyclic) {es : Array (Value × Value)}
    (hr : h.cells[r]? = some (.dict es)) {i j : Nat} {e f : Value × Value} (he : es[i]? = some e)
    (hf : es[j]? = some f) (halike : (h.datum e.1).Alike (h.datum f.1)) : i = j := by
  have hpairs : es.toList.Pairwise fun e f => h.same e.1 f.1 = false := by
    have hpairs := hk r
    rwa [entries, hr] at hpairs
  obtain ⟨hi, rfl⟩ := Array.getElem?_eq_some_iff.1 he
  obtain ⟨hj, rfl⟩ := Array.getElem?_eq_some_iff.1 hf
  have hlt {i j : Nat} (hi : i < es.size) (hj : j < es.size) (hij : i < j) :
      ¬(h.datum es[i].1).Alike (h.datum es[j].1) := by
    rw [← hk.same_iff ha, Bool.not_eq_true]
    exact List.pairwise_iff_getElem.1 hpairs i j hi hj hij
  rcases Nat.lt_trichotomy i j with hij | hij | hij
  · exact absurd halike (hlt hi hj hij)
  · exact hij
  · exact absurd halike.symm (hlt hj hi hij)

theorem modify_eq_setIfInBounds {es : Array (Value × Value)} {i : Nat} {e : Value × Value}
    (he : es[i]? = some e) (f : Value × Value → Value × Value) :
    es.modify i f = es.setIfInBounds i (f e) := by
  apply Array.ext_getElem?
  intro j
  rw [Array.getElem?_modify, Array.getElem?_setIfInBounds]
  split
  · rename_i hij
    subst hij
    rw [he, if_pos (Array.getElem?_eq_some_iff.1 he).1]
    rfl
  · rfl

theorem enters_putEntry (ha : h.Acyclic) (hk : h.KeysApart) {es : Array (Value × Value)}
    (hr : h.cells[r]? = some (.dict es)) (key value : Value) :
    h.Enters es key value ((es.find? fun e => h.same e.1 key).map (·.2))
      (putEntry h.same es key value) := by
  have hsame := hk.same_iff ha
  cases hfind : es.findIdx? fun e => h.same e.1 key with
  | none =>
    have hnone := Array.findIdx?_eq_none_iff.1 hfind
    rw [putEntry_eq_push hnone, Array.find?_eq_none.2 (by simpa using hnone)]
    refine .added fun e he halike => ?_
    rw [← hsame, hnone e he] at halike
    cases halike
  | some i =>
    obtain ⟨hi, hfound, hfirst⟩ := Array.findIdx?_eq_some_iff_getElem.1 hfind
    have he : es[i]? = some es[i] := Array.getElem?_eq_getElem hi
    have hfind' : es.find? (fun e => h.same e.1 key) = some es[i] :=
      Array.find?_eq_some_iff_getElem.2 ⟨hfound, i, hi, rfl, fun j hj => by simpa using hfirst j hj⟩
    rw [putEntry, hfind, hfind']
    simp only [modify_eq_setIfInBounds he, Option.map_some]
    refine .replaced he ((hsame _ _).1 hfound) fun j f hf halike => ?_
    exact (hk.eq_of_alike ha hr he hf (((hsame _ _).1 hfound).trans halike.symm)).symm

theorem stores_insert (ha : h.Acyclic) (hk : h.KeysApart) {es : Array (Value × Value)}
    (hr : h.cells[r]? = some (.dict es)) (key value : Value) :
    h.Stores r (h.insert r key value)
      (fun e => e = .cycle .dict ∧ (h.Leads key r ∨ h.Leads value r))
      (fun previous cell => ∃ es', h.Enters es key value previous es' ∧ cell = .dict es') := by
  have hes : h.entries r = es := by rw [entries, hr]
  rw [insert, hes]
  by_cases hlead : h.Leads key r ∨ h.Leads value r
  · rw [if_pos (by simpa only [Bool.or_eq_true, reaches_iff] using hlead)]
    exact .of_error fun e => and_iff_left hlead
  · rw [if_neg (by simpa only [Bool.or_eq_true, reaches_iff] using hlead)]
    exact .of_modify hr (fun e he => hlead he.2) ⟨_, enters_putEntry ha hk hr key value, rfl⟩

/-- Stores into the containers of a heap do what they are for, or nothing. -/
structure StoresExactly (h : Heap) : Prop where
  push : ∀ r items, h.cells[r]? = some (.list items) → ∀ v,
    h.Stores r (h.push r v) (fun e => e = .cycle .list ∧ h.Leads v r)
      (fun _ cell => cell = .list (items.push v))
  insert : ∀ r es, h.cells[r]? = some (.dict es) → ∀ key value,
    h.Stores r (h.insert r key value)
      (fun e => e = .cycle .dict ∧ (h.Leads key r ∨ h.Leads value r))
      (fun previous cell => ∃ es', h.Enters es key value previous es' ∧ cell = .dict es')
  setField : ∀ r fields, h.cells[r]? = some (.struct fields) → ∀ i v,
    h.Stores r (h.setField r i v)
      (fun e => e = .cycle .struct ∧ h.Leads v r ∨
        e = .index i fields.size ∧ ¬h.Leads v r ∧ ¬i < fields.size)
      (fun _ cell => ∃ hi : i < fields.size, cell = .struct (fields.set i v hi))

/-- A store is refused just if the container would come to hold itself or the field does not exist;
a refused store changes nothing, and any other changes one place of one container. -/
theorem stores_exactly (h : Heap) (ha : h.Acyclic) (hk : h.KeysApart) : h.StoresExactly where
  push _ _ hr v := stores_push hr v
  insert _ _ hr key value := stores_insert ha hk hr key value
  setField _ _ hr i v := stores_setField hr i v

/-! ### A list in several places -/

/-- A list that is a value and a key of a dict, and with it in a struct. -/
def entwined : Heap :=
  let (list, h) := Heap.empty.newList #[]
  let (r, h) := h.alloc (.dict #[(.string "k", list), (list, .number .one)])
  (h.newStruct #[list, .dict r]).2

theorem wellFormed_entwined : entwined.WellFormed := by
  refine ((wellFormed_empty.alloc ?_).alloc ?_).alloc ?_
  · simp [Cell.children]
  · simp [Cell.children, InRange, Value.ref?, empty, Heap.alloc]
  · simp [Cell.children, InRange, Value.ref?, empty, Heap.alloc]

theorem keysApart_entwined : entwined.KeysApart
  | 0 | 2 => .nil
  | 1 => by
    change [(Value.string "k", Value.list 0), (.list 0, .number .one)].Pairwise _
    refine .cons (fun e he => ?_) (List.pairwise_singleton _ _)
    cases List.mem_singleton.1 he
    exact Bool.eq_false_iff.2 fun hsame => nomatch (sameTo_of_ref?_eq_none rfl).1 hsame
  | _ + 3 => .nil

/-- The struct cannot come into the list, which is in it three times over; the list can come into
the struct once more. -/
theorem stores_entwined : entwined.Acyclic ∧ entwined.KeysApart ∧
    (entwined.push 0 (.struct 2)).1 = .error (.cycle .list) ∧
      (entwined.setField 2 1 (.list 0)).1 = .ok () := by
  have ha := wellFormed_entwined.acyclic
  have hstores := stores_exactly entwined ha keysApart_entwined
  have hlead : entwined.Leads (.struct 2) 0 := ⟨2, rfl, .single ⟨.list 0, List.mem_cons_self, rfl⟩⟩
  refine ⟨ha, keysApart_entwined, ?_, ?_⟩
  · exact ((hstores.push 0 #[] rfl (.struct 2)).refused _).2 ⟨rfl, hlead⟩
  · have hfree : ¬entwined.Leads (.list 0) 2 := by
      rintro ⟨_, ⟨⟩, hpath⟩
      rcases hpath.cases_head with heq | ⟨_, ⟨_, hw, _⟩, _⟩
      · cases heq
      · cases hw
    cases hresult : (entwined.setField 2 1 (.list 0)).1 with
    | ok u => rfl
    | error e =>
      rcases ((hstores.setField 2 #[.list 0, .dict 1] rfl 1 (.list 0)).refused e).1 hresult with
        ⟨_, hlead⟩ | ⟨_, _, hindex⟩
      · exact absurd hlead hfree
      · exact absurd (by decide) hindex

end EventScript.Heap
