import EventScript.Proofs.Heap.Keys

/-!
Looking keys up. A dict answers without a look that a key is absent if the key leads back to the
dict. That hides no entry: such a key is at least as large as the dict, and what is stored in the
dict is smaller.
-/
namespace EventScript.Heap

variable {h : Heap} {r : Ref} {v w key : Value} {e : Value × Value}

theorem Acyclic.sizeOf_datum_lt (ha : h.Acyclic) (hw : w ∈ h.inside v) :
    sizeOf (h.datum w) < sizeOf (h.datum v) :=
  Datum.sizeOf_lt_of_mem_children (ha.children_datum v ▸ List.mem_map_of_mem hw)

theorem Acyclic.sizeOf_datum_le (ha : h.Acyclic) (hw : h.Within v w) :
    sizeOf (h.datum w) ≤ sizeOf (h.datum v) := by
  induction hw with
  | refl => exact Nat.le_refl _
  | tail _ hw ih => exact Nat.le_trans (Nat.le_of_lt (ha.sizeOf_datum_lt hw)) ih

/-- A place with entries is one of a dict. -/
theorem kindAt?_of_mem_entries (he : e ∈ h.entries r) : h.kindAt? r = some .dict := by
  unfold entries at he
  split at he
  · rename_i hcell
    rw [kindAt?, hcell]
    rfl
  · simp at he

namespace Orderly

/-- A stored key equals no key that leads to the dict. -/
theorem same_eq_false_of_leads (hh : h.Orderly) (hkey : h.Genuine key) (hlead : h.Leads key r)
    (he : e ∈ h.entries r) : h.same e.1 key = false := by
  have ha := hh.wellFormed.acyclic
  obtain ⟨w, hwithin, hw, hr⟩ := hh.holdsGenuine.within_of_leads hkey hlead
  have hkind : w.kind = .dict := Option.some.inj ((hw r hr).symm.trans (kindAt?_of_mem_entries he))
  have hw : w = .dict r := by
    cases w <;> cases hkind
    exact congrArg Value.dict (Option.some.inj hr)
  have hlt : sizeOf (h.datum e.1) < sizeOf (h.datum key) := by
    have hstored := ha.sizeOf_datum_lt (mem_inside_dict (Array.mem_toList_iff.2 he)).1
    exact Nat.lt_of_lt_of_le hstored (hw ▸ ha.sizeOf_datum_le hwithin)
  rw [Bool.eq_false_iff, ne_eq, hh.same_iff]
  exact fun halike => Nat.ne_of_lt hlt halike.sizeOf_eq

/-- Entries of a dict with equal keys are one entry. -/
theorem eq_of_same (hh : h.Orderly) {f : Value × Value} (he : e ∈ h.entries r)
    (hf : f ∈ h.entries r) (hekey : h.same e.1 key = true) (hfkey : h.same f.1 key = true) :
    e = f := by
  have hequiv : Equivalence fun v w => (h.datum v).Alike (h.datum w) :=
    ⟨fun _ => .refl _, .symm, .trans⟩
  have hkeys : KeysDiffer (fun v w => (h.datum v).Alike (h.datum w)) (h.entries r).toList :=
    (hh.keysApart r).imp fun hne halike => by simp [(hh.same_iff _ _).2 halike] at hne
  rw [hh.same_iff] at hekey hfkey
  exact hkeys.eq_of_mem hequiv (Array.mem_toList_iff.2 he) (Array.mem_toList_iff.2 hf)
    (hekey.trans hfkey.symm)

theorem find?_eq_some_iff (hh : h.Orderly) :
    (h.entries r).find? (fun e => h.same e.1 key) = some e ↔
      e ∈ h.entries r ∧ h.same e.1 key = true := by
  have hfound {f : Value × Value} (hf : (h.entries r).find? (fun e => h.same e.1 key) = some f) :
      f ∈ h.entries r ∧ h.same f.1 key = true :=
    ⟨Array.mem_of_find?_eq_some hf,
      Array.find?_some (p := fun e : Value × Value => h.same e.1 key) hf⟩
  refine ⟨hfound, fun ⟨he, hkey⟩ => ?_⟩
  cases hfind : (h.entries r).find? fun e => h.same e.1 key with
  | none => exact absurd hkey (Array.find?_eq_none.1 hfind e he)
  | some f =>
    obtain ⟨hf, hfkey⟩ := hfound hfind
    rw [hh.eq_of_same hf he hfkey hkey]

/-- Not to look for a key that leads to the dict answers what looking would. -/
theorem get?_eq (hh : h.Orderly) (hkey : h.Genuine key) :
    h.get? r key = ((h.entries r).find? fun e => h.same e.1 key).map (·.2) := by
  unfold get?
  split
  · rename_i hreach
    have hnone : (h.entries r).find? (fun e => h.same e.1 key) = none := by
      refine Array.find?_eq_none.2 fun e he => ?_
      rw [hh.same_eq_false_of_leads hkey (reaches_iff.1 hreach) he]
      exact Bool.false_ne_true
    rw [hnone, Option.map_none]
  · rfl

theorem get?_eq_some_iff (hh : h.Orderly) (hkey : h.Genuine key) :
    h.get? r key = some v ↔ ∃ k, (k, v) ∈ h.entries r ∧ h.same k key = true := by
  rw [hh.get?_eq hkey, Option.map_eq_some_iff]
  constructor
  · rintro ⟨⟨k, _⟩, hfind, rfl⟩
    exact ⟨k, hh.find?_eq_some_iff.1 hfind⟩
  · rintro ⟨k, hk⟩
    exact ⟨(k, v), hh.find?_eq_some_iff.2 hk, rfl⟩

theorem has_iff (hh : h.Orderly) (hkey : h.Genuine key) :
    h.has r key = true ↔ ∃ e ∈ h.entries r, h.same e.1 key = true := by
  rw [has, Option.isSome_iff_exists]
  simp only [hh.get?_eq_some_iff hkey]
  exact ⟨fun ⟨v, k, hk⟩ => ⟨(k, v), hk⟩, fun ⟨e, he⟩ => ⟨e.2, e.1, he⟩⟩

end Orderly

/-! ### Lookups of hosts and scripts -/

open Machine in
/-- Scripts miss a key just where they are told that it is not there. -/
theorem dictGet_missing_iff (s : State) :
    (∃ text, (NativeOp.dictGet.run s).1 = .error (.missingKey text)) ↔
      (NativeOp.dictHas.run s).1 = .ok (some (.ofBool false)) := by
  have hinspect {α : Type} (look : Heap → α) (s : State) :
      inspect look s = (.ok (look s.world.heap), s) := rfl
  simp only [NativeOp.run, popDict, bind_apply, pop_apply]
  rcases hstack : s.frame.stack with _ | ⟨key, _ | ⟨dict, rest⟩⟩
  · simp
  · simp [State.withStack]
  · cases dict with
    | dict r =>
      simp only [State.withStack, hinspect, pure_apply, Heap.has]
      cases s.world.heap.get? r key with
      | none => exact ⟨fun _ => rfl, fun _ => ⟨_, rfl⟩⟩
      | some v =>
        have hne : Value.ofBool true ≠ .ofBool false := by decide
        constructor
        · rintro ⟨_, h⟩
          cases h
        · exact fun h => absurd (Option.some.inj (Except.ok.inj h)) hne
    | _ =>
      constructor
      · rintro ⟨_, h⟩
        cases h
      · intro h
        cases h

/-- Keys are found just where they are stored, by hosts and by scripts. -/
structure FindsKeys (h : Heap) : Prop where
  unguarded : ∀ r key, h.Genuine key →
    h.get? r key = ((h.entries r).find? fun e => h.same e.1 key).map (·.2)
  get : ∀ r key v, h.Genuine key →
    (h.get? r key = some v ↔ ∃ k, (k, v) ∈ h.entries r ∧ h.same k key = true)
  has : ∀ r key, h.Genuine key →
    (h.has r key = true ↔ ∃ e ∈ h.entries r, h.same e.1 key = true)
  missing : ∀ s : State, s.world.heap = h →
    ((∃ text, (NativeOp.dictGet.run s).1 = .error (.missingKey text)) ↔
      (NativeOp.dictHas.run s).1 = .ok (some (.ofBool false)))

theorem Orderly.findsKeys (hh : h.Orderly) : h.FindsKeys where
  unguarded _ _ hkey := hh.get?_eq hkey
  get _ _ _ hkey := hh.get?_eq_some_iff hkey
  has _ _ hkey := hh.has_iff hkey
  missing s _ := dictGet_missing_iff s

/-- The actions are given genuine handles, and none changes a container that is, or lies inside, a
key stored before. -/
def SparesKeys (h : Heap) : List Action → Prop
  | [] => True
  | action :: actions => (∀ v ∈ action.operands, h.Genuine v) ∧ h.LeavesKeys (action.perform h) ∧
      SparesKeys (action.perform h) actions

theorem Orderly.after (hh : h.Orderly) {actions : List Action} (hspares : h.SparesKeys actions) :
    (h.after actions).Orderly := by
  induction actions generalizing h with
  | nil => exact hh
  | cons action actions ih => exact ih (hh.perform hspares.1 hspares.2.1) hspares.2.2

/-- After any actions that spare stored keys, keys are found just where they are stored. -/
theorem findsKeys_after {actions : List Action} (hspares : Heap.empty.SparesKeys actions) :
    (Heap.empty.after actions).FindsKeys :=
  (orderly_empty.after hspares).findsKeys

/-- A dict with a list as key, another empty list, and a list of the dict. -/
def keyedByList : List Action :=
  [.newList #[], .newDict #[], .insert 1 (.list 0) (.number .one), .newList #[],
    .newList #[.dict 1]]

theorem findsKeys_after_keyedByList : Heap.empty.SparesKeys keyedByList ∧
    (Heap.empty.after keyedByList).FindsKeys ∧
      (Heap.empty.after keyedByList).get? 1 (.list 2) = some (.number .one) ∧
        (Heap.empty.after keyedByList).get? 1 (.list 3) = none := by
  have hlist : (Heap.empty.newList #[]).2.Orderly := orderly_empty.newList (by simp)
  have hdict : ((Heap.empty.newList #[]).2.newDict #[]).2.Orderly := hlist.newDict (by simp)
  have hinsert : ((Heap.empty.newList #[]).2.newDict #[]).2.LeavesKeys
      (((Heap.empty.newList #[]).2.newDict #[]).2.insert 1 (.list 0) (.number .one)).2 := by
    -- No key is stored yet.
    rintro r ⟨_ | _ | s, e, he, _⟩ <;> cases Array.mem_toList_iff.2 he
  have hkey : ((Heap.empty.newList #[]).2.newDict #[]).2.Genuine (.list 0) := by
    rintro _ ⟨⟩
    rfl
  have hkeyed := hdict.insert hkey (genuine_of_ref?_eq_none rfl) hinsert
  have hother := hkeyed.newList fun _ hw => absurd hw (Array.not_mem_empty _)
  have hspares : Heap.empty.SparesKeys keyedByList := by
    refine ⟨nofun, (extends_alloc _ _).leavesKeys wellFormed_empty, nofun,
      (extends_alloc _ _).leavesKeys hlist.wellFormed, ?_, hinsert, nofun,
      (extends_alloc _ _).leavesKeys hkeyed.wellFormed, ?_,
      (extends_alloc _ _).leavesKeys hother.wellFormed, trivial⟩
    · exact List.forall_mem_cons.2
        ⟨hkey, List.forall_mem_singleton.2 (genuine_of_ref?_eq_none rfl)⟩
    · refine List.forall_mem_singleton.2 ?_
      rintro _ ⟨⟩
      cbv
  refine ⟨hspares, findsKeys_after hspares, ?_, ?_⟩
  · cbv
  · cbv

end EventScript.Heap
