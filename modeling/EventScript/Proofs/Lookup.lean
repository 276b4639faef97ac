import EventScript.Scope

/-!
What tables and scopes answer after an insertion. The entries of a table are its contents: a key is
found exactly where it stands, and an insertion moves no entry.
-/
namespace EventScript

namespace Table

variable {κ α : Type} [BEq κ] [Hashable κ] [LawfulBEq κ] {t : Table κ α} {k l : κ} {a b : α}
  {i j : Nat}

theorem position?_eq_some_iff : t.position? k = some i ↔ ∃ a, t.entries[i]? = some (k, a) :=
  t.index_eq_some_iff k i

theorem position?_of_entry (h : t.entries[i]? = some (k, a)) : t.position? k = some i :=
  position?_eq_some_iff.2 ⟨a, h⟩

theorem find?_eq_some_iff : t.find? k = some a ↔ ∃ i : Nat, t.entries[i]? = some (k, a) := by
  constructor
  · intro h
    obtain ⟨i, hi, ha⟩ := Option.bind_eq_some_iff.1 h
    obtain ⟨b, hb⟩ := position?_eq_some_iff.1 hi
    have : b = a := by simpa [hb] using ha
    exact ⟨i, this ▸ hb⟩
  · rintro ⟨i, hi⟩
    simp [find?, position?_of_entry hi, hi]

theorem find?_of_entry (h : t.entries[i]? = some (k, a)) : t.find? k = some a :=
  find?_eq_some_iff.2 ⟨i, h⟩

/-- A key stands in one place only. -/
theorem entry_unique (hi : t.entries[i]? = some (k, a)) (hj : t.entries[j]? = some (k, b)) :
    i = j := by
  have h := position?_of_entry hi
  rw [position?_of_entry hj] at h
  exact (Option.some.inj h).symm

theorem position?_eq_none_iff : t.position? k = none ↔ t.find? k = none := by
  constructor
  · intro h
    simp [find?, h]
  · intro h
    cases hp : t.position? k with
    | none => rfl
    | some i =>
      obtain ⟨a, ha⟩ := position?_eq_some_iff.1 hp
      rw [find?_of_entry ha] at h
      cases h

@[simp] theorem find?_empty : (empty : Table κ α).find? k = none := by
  rw [← position?_eq_none_iff]
  simp [position?, empty]

@[simp] theorem entries_empty : (empty : Table κ α).entries = #[] := rfl

theorem entries_insert_of_position? (h : t.position? k = some i) :
    (t.insert k a).entries = t.entries.setIfInBounds i (k, a) := by
  obtain ⟨entries, index, sound⟩ := t
  simp only [position?] at h
  simp only [insert]
  split
  · rename_i j hj
    rw [h] at hj
    cases hj
    rfl
  · rename_i hnone
    rw [h] at hnone
    cases hnone

theorem entries_insert_of_find?_none (h : t.find? k = none) :
    (t.insert k a).entries = t.entries.push (k, a) := by
  rw [← position?_eq_none_iff] at h
  obtain ⟨entries, index, sound⟩ := t
  simp only [position?] at h
  simp only [insert]
  split
  · rename_i j hj
    rw [h] at hj
    cases hj
  · rfl

@[simp] theorem find?_insert_self : (t.insert k a).find? k = some a := by
  cases h : t.position? k with
  | none =>
    apply find?_of_entry (i := t.entries.size)
    rw [entries_insert_of_find?_none (position?_eq_none_iff.1 h)]
    simp
  | some i =>
    obtain ⟨b, hb⟩ := position?_eq_some_iff.1 h
    have hi := (Array.getElem?_eq_some_iff.1 hb).1
    apply find?_of_entry (i := i)
    rw [entries_insert_of_position? h]
    simp [hi]

/-- An entry of another key stays. -/
theorem entry_insert_of_ne (hne : l ≠ k) :
    (t.insert k a).entries[j]? = some (l, b) ↔ t.entries[j]? = some (l, b) := by
  cases h : t.position? k with
  | none =>
    rw [entries_insert_of_find?_none (position?_eq_none_iff.1 h), Array.getElem?_push]
    split
    · rename_i hj
      simp [hj, Ne.symm hne]
    · rfl
  | some i =>
    obtain ⟨c, hc⟩ := position?_eq_some_iff.1 h
    rw [entries_insert_of_position? h, Array.getElem?_setIfInBounds]
    split
    · rename_i hij
      subst hij
      simp [hc, Ne.symm hne]
    · rfl

theorem find?_insert_of_ne (hne : l ≠ k) : (t.insert k a).find? l = t.find? l := by
  apply Option.ext
  intro b
  simp only [find?_eq_some_iff, entry_insert_of_ne hne]

end Table

namespace Scope

variable {s s' : Scope} {name : String} {type : StaticType} {l : Local} {slot : Nat}

/-- Every name has a slot of its own among those given out. -/
structure Sound (s : Scope) : Prop where
  below : ∀ {name l}, s.find? name = some l → l.slot < s.slotCount
  apart : ∀ {m n k l}, s.find? m = some k → s.find? n = some l → k.slot = l.slot → m = n

/-- A later scope of the same schema: what was declared is kept, and new names have new slots. -/
structure Extends (s s' : Scope) : Prop where
  count : s.slotCount ≤ s'.slotCount
  kept : ∀ {name l}, s.find? name = some l → s'.find? name = some l
  fresh : ∀ {name l}, s'.find? name = some l → s.find? name = some l ∨ s.slotCount ≤ l.slot

theorem Extends.refl (s : Scope) : s.Extends s := ⟨Nat.le_refl _, id, .inl⟩

theorem Extends.trans {s₁ s₂ s₃ : Scope} (h : s₁.Extends s₂) (h' : s₂.Extends s₃) :
    s₁.Extends s₃ where
  count := Nat.le_trans h.count h'.count
  kept := fun hl => h'.kept (h.kept hl)
  fresh := by
    intro name l hl
    rcases h'.fresh hl with hl | hl
    · exact h.fresh hl
    · exact .inr (Nat.le_trans h.count hl)

theorem sound_empty : empty.Sound :=
  ⟨fun h => by simp [find?, empty] at h, fun h => by simp [find?, empty] at h⟩

/-- Gives the next slot to a name that has none. -/
def add (s : Scope) (name : String) (type : StaticType) : Scope :=
  ⟨s.locals.insert name ⟨type, s.slotCount⟩, s.slotCount + 1⟩

/-- Gives the next slot to no name. -/
def skip (s : Scope) : Scope := { s with slotCount := s.slotCount + 1 }

@[simp] theorem find?_add_self : (s.add name type).find? name = some ⟨type, s.slotCount⟩ := by
  simp [add, find?]

theorem find?_add_of_ne {n : String} (h : n ≠ name) : (s.add name type).find? n = s.find? n := by
  simp [add, find?, Table.find?_insert_of_ne h]

theorem temporary?_eq_some_iff :
    s.temporary? = some (slot, s') ↔ s.slotCount < maxSlots ∧ slot = s.slotCount ∧ s' = s.skip := by
  unfold temporary? skip
  split
  · rename_i h
    simp [h, eq_comm]
  · rename_i h
    simp [h]

/-- A name is declared already, or gets the next slot. -/
theorem declare?_eq_some_iff : s.declare? name type = some (l, s') ↔
    s.find? name = some l ∧ s' = s ∨
      s.find? name = none ∧ s.slotCount < maxSlots ∧ l = ⟨type, s.slotCount⟩ ∧
        s' = s.add name type := by
  unfold declare?
  cases h : s.find? name with
  | some k => simp [eq_comm]
  | none =>
    obtain ⟨locals, count⟩ := s
    simp only [add]
    split
    · rename_i h
      simp [h, eq_comm]
    · rename_i h
      simp [h]

theorem extends_skip (s : Scope) : s.Extends s.skip := ⟨Nat.le_succ _, id, .inl⟩

theorem extends_add (h : s.find? name = none) : s.Extends (s.add name type) where
  count := Nat.le_succ _
  kept := by
    intro n l hl
    rw [find?_add_of_ne]
    · exact hl
    · rintro rfl
      simp [h] at hl
  fresh := by
    intro n l hl
    by_cases hn : n = name
    · subst hn
      rw [find?_add_self] at hl
      cases hl
      exact .inr (Nat.le_refl _)
    · rw [find?_add_of_ne hn] at hl
      exact .inl hl

theorem sound_skip (h : s.Sound) : s.skip.Sound :=
  ⟨fun hl => Nat.lt_succ_of_lt (h.below hl), h.apart⟩

theorem sound_add (h : s.Sound) : (s.add name type).Sound where
  below := by
    intro n l hl
    by_cases hn : n = name
    · subst hn
      rw [find?_add_self] at hl
      cases hl
      exact Nat.lt_succ_self _
    · rw [find?_add_of_ne hn] at hl
      exact Nat.lt_succ_of_lt (h.below hl)
  apart := by
    intro m n k l hk hl hslot
    by_cases hm : m = name <;> by_cases hn : n = name
    · rw [hm, hn]
    · subst hm
      rw [find?_add_self] at hk
      rw [find?_add_of_ne hn] at hl
      cases hk
      have := h.below hl
      simp only at hslot
      omega
    · subst hn
      rw [find?_add_self] at hl
      rw [find?_add_of_ne hm] at hk
      cases hl
      have := h.below hk
      simp only at hslot
      omega
    · rw [find?_add_of_ne hm] at hk
      rw [find?_add_of_ne hn] at hl
      exact h.apart hk hl hslot

theorem extends_of_declare? (h : s.declare? name type = some (l, s')) : s.Extends s' := by
  rcases declare?_eq_some_iff.1 h with ⟨_, rfl⟩ | ⟨hnone, _, _, rfl⟩
  · exact .refl _
  · exact extends_add hnone

theorem sound_of_declare? (hs : s.Sound) (h : s.declare? name type = some (l, s')) : s'.Sound := by
  rcases declare?_eq_some_iff.1 h with ⟨_, rfl⟩ | ⟨_, _, _, rfl⟩
  · exact hs
  · exact sound_add hs

theorem find?_of_declare? (h : s.declare? name type = some (l, s')) : s'.find? name = some l := by
  rcases declare?_eq_some_iff.1 h with ⟨hl, rfl⟩ | ⟨_, _, rfl, rfl⟩
  · exact hl
  · exact find?_add_self

/-- The type of a variable is that of its first declaration. -/
theorem type_of_declare? (h : s.declare? name type = some (l, s')) (hnone : s.find? name = none) :
    l.type = type := by
  rcases declare?_eq_some_iff.1 h with ⟨hl, _⟩ | ⟨_, _, rfl, _⟩
  · rw [hnone] at hl
    cases hl
  · rfl

private theorem getElem?_names_of_mem {slot : Nat} {name : String} :
    ∀ (es : List (String × Local)) (names : Array (Option String)), slot < names.size →
      (∀ e ∈ es, e.2.slot = slot → e.1 = name) →
      (names[slot]? = some (some name) ∨ ∃ e ∈ es, e.2.slot = slot) →
      (es.foldl (fun names e => names.setIfInBounds e.2.slot (some e.1)) names)[slot]? =
        some (some name)
  | [], names, _, _, h => by
    rcases h with h | ⟨e, he, _⟩
    · exact h
    · cases he
  | e :: es, names, hsize, hsame, h => by
    rw [List.foldl_cons]
    apply getElem?_names_of_mem es _ (by simpa using hsize)
      fun d hd => hsame d (List.mem_cons_of_mem _ hd)
    by_cases he : e.2.slot = slot
    · left
      rw [he, hsame e List.mem_cons_self he]
      simp [hsize]
    · rcases h with h | ⟨d, hd, hdslot⟩
      · left
        rw [Array.getElem?_setIfInBounds_ne he, h]
      · rcases List.mem_cons.1 hd with rfl | hd
        · exact absurd hdslot he
        · exact .inr ⟨d, hd, hdslot⟩

/-- Messages call a slot by the name that has it. -/
theorem slotNames_of_find? (hs : s.Sound) (h : s.find? name = some l) :
    s.slotNames[l.slot]? = some (some name) := by
  unfold slotNames
  rw [← Array.foldl_toList]
  apply getElem?_names_of_mem
  · simpa using hs.below h
  · intro e he heq
    obtain ⟨i, hi⟩ := List.getElem?_of_mem he
    exact hs.apart (l := l) (k := e.2) (Table.find?_of_entry (by simpa using hi)) h heq
  · right
    obtain ⟨i, hi⟩ := Table.find?_eq_some_iff.1 h
    exact ⟨(name, l), by simpa using Array.mem_of_getElem? hi, rfl⟩

/-- The type of the variable that has a slot; temporaries have none. -/
def typeAt (s : Scope) (slot : Nat) : Option StaticType :=
  (s.locals.values.find? fun l => l.slot = slot).map (·.type)

private theorem find?_of_mem_values (h : l ∈ s.locals.values) :
    ∃ name, s.find? name = some l := by
  obtain ⟨⟨name, k⟩, hmem, rfl⟩ := List.mem_map.1 h
  obtain ⟨i, hi⟩ := List.getElem?_of_mem hmem
  exact ⟨name, Table.find?_of_entry (i := i) (by simpa using hi)⟩

theorem find?_of_typeAt (h : s.typeAt slot = some type) :
    ∃ name, s.find? name = some ⟨type, slot⟩ := by
  obtain ⟨l, hl, rfl⟩ := Option.map_eq_some_iff.1 h
  have hslot : l.slot = slot := by simpa using List.find?_some hl
  subst hslot
  exact find?_of_mem_values (List.mem_of_find?_eq_some hl)

theorem typeAt_of_find? (hs : s.Sound) (h : s.find? name = some l) :
    s.typeAt l.slot = some l.type := by
  cases ht : s.typeAt l.slot with
  | none =>
    obtain ⟨i, hi⟩ := Table.find?_eq_some_iff.1 h
    have hmem : l ∈ s.locals.values :=
      List.mem_map.2 ⟨(name, l), by simpa using Array.mem_of_getElem? hi, rfl⟩
    simp only [typeAt, Option.map_eq_none_iff, List.find?_eq_none] at ht
    simpa using ht l hmem
  | some type =>
    obtain ⟨n, hn⟩ := find?_of_typeAt ht
    have hname := hs.apart hn h rfl
    subst hname
    rw [h] at hn
    rw [congrArg Local.type (Option.some.inj hn)]

theorem typeAt_eq_none (h : ∀ {name l}, s.find? name = some l → l.slot ≠ slot) :
    s.typeAt slot = none := by
  cases ht : s.typeAt slot with
  | none => rfl
  | some type =>
    obtain ⟨n, hn⟩ := find?_of_typeAt ht
    exact absurd rfl (h hn)

/-- A slot that a scope has given to no name stays without one. -/
theorem Extends.typeAt_eq_none (h : s.Extends s') (hslot : slot < s.slotCount)
    (hnew : ∀ {name l}, s.find? name = some l → l.slot ≠ slot) : s'.typeAt slot = none := by
  apply Scope.typeAt_eq_none
  intro name l hl
  rcases h.fresh hl with hl | hl
  · exact hnew hl
  · omega

end Scope

end EventScript
