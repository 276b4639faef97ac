import EventScript.Proofs.Lookup

/-!
Slots under any requests. Names and temporaries are served from one sequence of slots: whatever has
been asked for, each slot up to the count has been handed out once, a name keeps the slot and the
type it was first declared with, and a request is refused only when all slots are handed out.
-/
namespace EventScript

namespace Scope

/-- What a scope can be asked for. -/
inductive Request where
  | declare (name : String) (type : StaticType)
  | temporary

inductive Reply where
  | variable (l : Local)
  | temporary (slot : Nat)

/-- Answers a request. A scope that refuses one stays as it is. -/
def serve (s : Scope) : Request → Option Reply × Scope
  | .declare name type =>
    match s.declare? name type with
    | some (l, s') => (some (.variable l), s')
    | none => (none, s)
  | .temporary =>
    match s.temporary? with
    | some (slot, s') => (some (.temporary slot), s')
    | none => (none, s)

/-- A scope with the temporaries that it has handed out. -/
structure History where
  scope : Scope := .empty
  temporaries : List Nat := []

namespace History

def ask (h : History) (r : Request) : History :=
  match h.scope.serve r with
  | (some (.temporary slot), scope) => ⟨scope, h.temporaries ++ [slot]⟩
  | (_, scope) => ⟨scope, h.temporaries⟩

/-- What becomes of an empty scope. -/
def after (rs : List Request) : History := rs.foldl ask {}

/-- The slots of all names and all temporaries. -/
def slots (h : History) : List Nat := h.scope.locals.values.map (·.slot) ++ h.temporaries

/-- What can come of a request. -/
inductive Asked (h : History) : Request → Option Reply → History → Prop where
  | found {name : String} {type : StaticType} {l : Local} (found : h.scope.find? name = some l) :
      Asked h (.declare name type) (some (.variable l)) h
  | declared {name : String} {type : StaticType} (new : h.scope.find? name = none)
      (room : h.scope.slotCount < maxSlots) :
      Asked h (.declare name type) (some (.variable ⟨type, h.scope.slotCount⟩))
        ⟨h.scope.add name type, h.temporaries⟩
  | temporary (room : h.scope.slotCount < maxSlots) :
      Asked h .temporary (some (.temporary h.scope.slotCount))
        ⟨h.scope.skip, h.temporaries ++ [h.scope.slotCount]⟩
  | refused {r : Request} (full : maxSlots ≤ h.scope.slotCount) : Asked h r none h

/-- The slots up to the count are handed out, each of them once. -/
structure Sound (h : History) : Prop where
  names : h.scope.Sound
  slots : h.slots.Perm (List.range h.scope.slotCount)
  count : h.scope.slotCount ≤ maxSlots

/-- No slot is handed out twice, names are shown at their slots, and what is refused is refused for
want of slots. -/
structure KeepsApart (h : History) : Prop where
  distinct : h.slots.Nodup
  below : ∀ slot ∈ h.slots, slot < h.scope.slotCount
  size : h.scope.slotNames.size = h.scope.slotCount
  named : ∀ (name : String) (slot : Nat), h.scope.slotNames[slot]? = some (some name) ↔
    ∃ l, h.scope.find? name = some l ∧ l.slot = slot
  unnamed : ∀ slot ∈ h.temporaries, h.scope.slotNames[slot]? = some none
  refused : ∀ r, (h.scope.serve r).1 = none → h.ask r = h ∧ h.slots.length = maxSlots

variable {h h' : History} {r : Request} {a : Option Reply} {name : String} {type : StaticType}
  {l : Local} {slot : Nat}

/-! ### One request -/

theorem asked (h : History) (r : Request) : h.Asked r (h.scope.serve r).1 (h.ask r) := by
  cases r with
  | declare name type =>
    cases hd : h.scope.declare? name type with
    | some answer =>
      obtain ⟨l, s'⟩ := answer
      simp only [ask, serve, hd]
      rcases declare?_eq_some_iff.1 hd with ⟨hl, rfl⟩ | ⟨hnone, hlt, rfl, rfl⟩
      · exact .found hl
      · exact .declared hnone hlt
    | none =>
      simp only [ask, serve, hd]
      refine .refused (Nat.le_of_not_lt fun hlt => ?_)
      cases hf : h.scope.find? name with
      | some l => simp [declare?_eq_some_iff.2 (.inl ⟨hf, rfl⟩)] at hd
      | none => simp [declare?_eq_some_iff.2 (.inr ⟨hf, hlt, rfl, rfl⟩)] at hd
  | temporary =>
    cases ht : h.scope.temporary? with
    | some answer =>
      obtain ⟨slot, s'⟩ := answer
      simp only [ask, serve, ht]
      obtain ⟨hlt, rfl, rfl⟩ := temporary?_eq_some_iff.1 ht
      exact .temporary hlt
    | none =>
      simp only [ask, serve, ht]
      refine .refused (Nat.le_of_not_lt fun hlt => ?_)
      simp [temporary?_eq_some_iff.2 ⟨hlt, rfl, rfl⟩] at ht

theorem slots_add {s : Scope} {temporaries : List Nat} (hnone : s.find? name = none) :
    (slots ⟨s.add name type, temporaries⟩).Perm (slots ⟨s, temporaries⟩ ++ [s.slotCount]) := by
  have hvalues : (s.add name type).locals.values = s.locals.values ++ [⟨type, s.slotCount⟩] := by
    simp [Table.values, add, Table.entries_insert_of_find?_none hnone]
  simp only [slots, hvalues, List.map_append, List.map_singleton, List.append_assoc]
  exact List.perm_append_comm.append_left _

theorem Asked.sound (ha : h.Asked r a h') (hs : h.Sound) : h'.Sound := by
  cases ha with
  | found | refused => exact hs
  | declared new room =>
    refine ⟨sound_add hs.names, (slots_add new).trans ?_, room⟩
    rw [add, List.range_succ]
    exact hs.slots.append_right _
  | temporary room =>
    refine ⟨sound_skip hs.names, ?_, room⟩
    rw [skip, List.range_succ, slots, ← List.append_assoc]
    exact hs.slots.append_right _

theorem Asked.extends (ha : h.Asked r a h') : h.scope.Extends h'.scope := by
  cases ha with
  | found | refused => exact .refl _
  | declared new => exact extends_add new
  | temporary => exact extends_skip _

/-! ### All requests -/

theorem sound_after (rs : List Request) : (after rs).Sound := by
  have hrun (rs : List Request) {h : History} (hs : h.Sound) : (rs.foldl ask h).Sound := by
    induction rs generalizing h with
    | nil => exact hs
    | cons r rs ih => exact ih ((asked h r).sound hs)
  exact hrun rs ⟨sound_empty, .refl _, Nat.zero_le _⟩

theorem extends_after (rs more : List Request) :
    (after rs).scope.Extends (after (rs ++ more)).scope := by
  have hrun (more : List Request) (h : History) : h.scope.Extends (more.foldl ask h).scope := by
    induction more generalizing h with
    | nil => exact .refl _
    | cons r more ih => exact (asked h r).extends.trans (ih _)
  rw [after, after, List.foldl_append]
  exact hrun more _

theorem serve_of_find? {s : Scope} (hl : s.find? name = some l) :
    s.serve (.declare name type) = (some (.variable l), s) := by
  simp [serve, declare?_eq_some_iff.2 (.inl ⟨hl, rfl⟩)]

/-! ### Names of slots -/

theorem size_names (es : List (String × Local)) (names : Array (Option String)) :
    (es.foldl (fun names e => names.setIfInBounds e.2.slot (some e.1)) names).size =
      names.size := by
  induction es generalizing names with
  | nil => rfl
  | cons e es ih => rw [List.foldl_cons, ih, Array.size_setIfInBounds]

theorem exists_entry_of_names {es : List (String × Local)} {names : Array (Option String)}
    (h : (es.foldl (fun names e => names.setIfInBounds e.2.slot (some e.1)) names)[slot]? =
      some (some name)) :
    names[slot]? = some (some name) ∨ ∃ e ∈ es, e.1 = name ∧ e.2.slot = slot := by
  induction es generalizing names with
  | nil => exact .inl h
  | cons e es ih =>
    rcases ih h with h | ⟨d, hd, hname, hslot⟩
    · rw [Array.getElem?_setIfInBounds] at h
      split at h
      · rename_i hslot
        split at h
        · simp only [Option.some.injEq] at h
          exact .inr ⟨e, List.mem_cons_self, h, hslot⟩
        · cases h
      · exact .inl h
    · exact .inr ⟨d, List.mem_cons_of_mem _ hd, hname, hslot⟩

theorem size_slotNames (s : Scope) : s.slotNames.size = s.slotCount := by
  rw [slotNames, ← Array.foldl_toList, size_names, Array.size_replicate]

theorem slotNames_eq_some_iff {s : Scope} (hs : s.Sound) :
    s.slotNames[slot]? = some (some name) ↔ ∃ l, s.find? name = some l ∧ l.slot = slot := by
  constructor
  · intro h
    rw [slotNames, ← Array.foldl_toList] at h
    rcases exists_entry_of_names h with h | ⟨⟨_, l⟩, he, rfl, hslot⟩
    · simp [Array.getElem?_replicate] at h
    · obtain ⟨i, hi⟩ := List.getElem?_of_mem he
      exact ⟨l, Table.find?_of_entry (by simpa using hi), hslot⟩
  · rintro ⟨l, hl, rfl⟩
    exact slotNames_of_find? hs hl

theorem slot_mem_of_find? (hl : h.scope.find? name = some l) :
    l.slot ∈ h.scope.locals.values.map (·.slot) := by
  obtain ⟨i, hi⟩ := Table.find?_eq_some_iff.1 hl
  have hmem : (name, l) ∈ h.scope.locals.entries.toList := by
    simpa using Array.mem_of_getElem? hi
  exact List.mem_map_of_mem (List.mem_map_of_mem hmem)

theorem Sound.keepsApart (hs : h.Sound) : h.KeepsApart := by
  have hdistinct : h.slots.Nodup := hs.slots.nodup_iff.2 List.nodup_range
  have hbelow : ∀ slot ∈ h.slots, slot < h.scope.slotCount := fun slot hslot =>
    List.mem_range.1 (hs.slots.mem_iff.1 hslot)
  refine ⟨hdistinct, hbelow, size_slotNames _, fun _ _ => slotNames_eq_some_iff hs.names,
    fun slot hslot => ?_, fun r hr => ?_⟩
  · have hlt := hbelow slot (List.mem_append_right _ hslot)
    rw [← size_slotNames] at hlt
    rw [Array.getElem?_eq_getElem hlt]
    cases hname : h.scope.slotNames[slot] with
    | none => rfl
    | some name =>
      -- A temporary that is shown with a name would be the slot of that name as well.
      obtain ⟨l, hl, rfl⟩ := (slotNames_eq_some_iff hs.names).1
        ((Array.getElem?_eq_getElem hlt).trans (congrArg some hname))
      exact absurd hslot ((List.nodup_append.1 hdistinct).2.2 _ (slot_mem_of_find? hl) _ · rfl)
  · have ha := asked h r
    rw [hr] at ha
    generalize hask : h.ask r = h' at ha
    cases ha with
    | refused full =>
      refine ⟨rfl, ?_⟩
      rw [hs.slots.length_eq, List.length_range]
      exact Nat.le_antisymm hs.count full

end History

/-- Whatever has been asked of a scope, slots do not collide. A name that has been declared stays
where it is, whatever else is asked for, and is answered the same when it is declared again. -/
theorem slots_neverCollide (rs more : List Request) :
    (History.after rs).KeepsApart ∧
    (∀ name type l, ((History.after rs).scope.serve (.declare name type)).1 = some (.variable l) →
      ((History.after rs).scope.find? name = none → l.type = type) ∧
        ((History.after rs).ask (.declare name type)).scope.find? name = some l) ∧
    ∀ name l, (History.after rs).scope.find? name = some l →
      (History.after (rs ++ more)).scope.find? name = some l ∧
        ∀ type, ((History.after (rs ++ more)).scope.serve (.declare name type)).1 =
          some (.variable l) := by
  refine ⟨(History.sound_after rs).keepsApart, fun name type l hl => ?_, fun name l hl => ?_⟩
  · have ha := History.asked (History.after rs) (.declare name type)
    rw [hl] at ha
    generalize (History.after rs).ask (.declare name type) = h' at ha ⊢
    cases ha with
    | found found => exact ⟨fun hnone => (nomatch hnone.symm.trans found), found⟩
    | declared => exact ⟨fun _ => rfl, find?_add_self⟩
  · have hkept := (History.extends_after rs more).kept hl
    exact ⟨hkept, fun type => by rw [History.serve_of_find? hkept]⟩

/-- A variable, behind which a temporary and another variable come, and the first one again with
another type. -/
theorem slots_neverCollide_redeclared :
    let x : Request := .declare "x" .number
    let more : List Request := [.temporary, .declare "y" .any]
    ((History.after []).scope.serve x).1 = some (.variable ⟨.number, 0⟩) ∧
      (History.after [x]).scope.find? "x" = some ⟨.number, 0⟩ ∧
      ((History.after ([x] ++ more)).scope.serve (.declare "x" .text)).1 =
        some (.variable ⟨.number, 0⟩) ∧ (History.after ([x] ++ more)).KeepsApart := by
  intro x more
  have hserve : ((History.after []).scope.serve x).1 = some (.variable ⟨.number, 0⟩) := by cbv
  have hx : (History.after [x]).scope.find? "x" = some ⟨.number, 0⟩ :=
    ((slots_neverCollide [] []).2.1 "x" .number _ hserve).2
  exact ⟨hserve, hx, ((slots_neverCollide [x] more).2.2 "x" _ hx).2 .text,
    (slots_neverCollide ([x] ++ more) []).1⟩

end Scope

end EventScript
