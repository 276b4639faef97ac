import EventScript.Proofs.Lists
import EventScript.SortedMap
import Mathlib.Data.List.Nodup
import Mathlib.Data.List.Pairwise

/-!
Maps put together from lists of entries: what the entries are, and that a map is what its own
entries make.
-/
namespace EventScript.SortedMap

variable {κ α : Type} [LT κ] [DecidableLT κ] {k : κ} {a : α} {es fs : List (κ × α)}

theorem length_insertEntry_le : (insertEntry k a es).length ≤ es.length + 1 := by
  fun_induction insertEntry k a es <;> simp_all

theorem forall_insertEntry {P : κ → Prop} {Q : α → Prop} (hk : P k) (ha : Q a)
    (h : ∀ e ∈ es, P e.1 ∧ Q e.2) : ∀ e ∈ insertEntry k a es, P e.1 ∧ Q e.2 := by
  fun_induction insertEntry k a es with
  | case1 => simpa using ⟨hk, ha⟩
  | case2 => exact List.forall_mem_cons.2 ⟨⟨hk, ha⟩, h⟩
  | case3 _ _ _ _ _ ih =>
    have h := List.forall_mem_cons.1 h
    exact List.forall_mem_cons.2 ⟨h.1, ih h.2⟩
  | case4 =>
    have h := List.forall_mem_cons.1 h
    exact List.forall_mem_cons.2 ⟨⟨h.1.1, ha⟩, h.2⟩

theorem insertEntry_eq_append [Std.Asymm (α := κ) (· < ·)] (h : ∀ e ∈ es, e.1 < k) :
    insertEntry k a es = es ++ [(k, a)] := by
  induction es with
  | nil => rfl
  | cons e es ih =>
    obtain ⟨he, hes⟩ := List.forall_mem_cons.1 h
    rw [insertEntry, if_neg (Std.Asymm.asymm _ _ he), if_pos he, ih hes, List.cons_append]

variable [TransLT κ]

theorem entries_ofList (es : List (κ × α)) :
    (ofList es).entries = es.foldl (fun fs e => insertEntry e.1 e.2 fs) [] :=
  (List.foldl_hom entries fun _ _ => rfl).symm

theorem size_ofList_le (es : List (κ × α)) : (ofList es).size ≤ es.length := by
  have := foldl_measure_le List.length
    (fun (fs : List (κ × α)) e => length_insertEntry_le (k := e.1) (a := e.2)) es []
  rwa [← entries_ofList, List.length_nil, Nat.zero_add] at this

theorem forall_ofList {P : κ → Prop} {Q : α → Prop} (h : ∀ e ∈ es, P e.1 ∧ Q e.2) :
    ∀ e ∈ (ofList es).entries, P e.1 ∧ Q e.2 := by
  rw [entries_ofList]
  exact List.foldlRecOn (motive := fun fs : List (κ × α) => ∀ e ∈ fs, P e.1 ∧ Q e.2) es _
    (by simp) fun _ hfs e he => forall_insertEntry (h e he).1 (h e he).2 hfs

/-- A map is what its own entries make. -/
theorem ofList_entries [Std.Asymm (α := κ) (· < ·)] (m : SortedMap κ α) : ofList m.entries = m := by
  have : (ofList m.entries).entries = m.entries := by
    rw [entries_ofList]
    exact foldl_eq_of_pairwise id (fun _ _ => insertEntry_eq_append) m.ascending
  obtain ⟨entries, _⟩ := m
  generalize ofList entries = m at *
  obtain ⟨entries', _⟩ := m
  cases this
  rfl

/-! ### Maps that correspond -/

section Correspondence

variable {κ α β : Type} [LT κ]

/-- The map with other values for the same keys. -/
def mapValues (m : SortedMap κ α) (f : α → β) : SortedMap κ β :=
  ⟨m.entries.map fun e => (e.1, f e.2), List.pairwise_map.2 m.ascending⟩

variable [Std.Asymm (α := κ) (· < ·)]

theorem ne_of_mem_tail {e e' : κ × α} {es : List (κ × α)} (h : (e :: es).Pairwise (·.1 < ·.1))
    (he' : e' ∈ es) : e.1 ≠ e'.1 := fun heq => by
  have hlt := (List.pairwise_cons.1 h).1 e' he'
  rw [heq] at hlt
  exact Std.Asymm.asymm _ _ hlt hlt

/-- Entries in ascending order that can be looked up in each other correspond one by one. -/
theorem forall₂_of_ascending {R : α → β → Prop} {es : List (κ × α)} {fs : List (κ × β)}
    (hes : es.Pairwise (·.1 < ·.1)) (hfs : fs.Pairwise (·.1 < ·.1))
    (hright : ∀ e ∈ es, ∃ f ∈ fs, e.1 = f.1 ∧ R e.2 f.2) (hleft : ∀ f ∈ fs, ∃ e ∈ es, e.1 = f.1) :
    List.Forall₂ (fun e f => e.1 = f.1 ∧ R e.2 f.2) es fs := by
  induction es generalizing fs with
  | nil =>
    cases fs with
    | nil => exact .nil
    | cons f fs => simpa using hleft f (by simp)
  | cons e es ih =>
    cases fs with
    | nil => simpa using hright e (by simp)
    | cons f fs =>
      obtain ⟨he, hes'⟩ := List.pairwise_cons.1 hes
      obtain ⟨hf, hfs'⟩ := List.pairwise_cons.1 hfs
      -- The first keys agree, since each of them is the least one.
      have hkey : e.1 = f.1 := by
        obtain ⟨g, hg, heg, _⟩ := hright e (by simp)
        obtain ⟨g', hg', hgf⟩ := hleft f (by simp)
        rcases List.mem_cons.1 hg with rfl | hg
        · exact heg
        rcases List.mem_cons.1 hg' with rfl | hg'
        · exact hgf
        exact absurd (hgf ▸ he g' hg') (Std.Asymm.asymm _ _ (heg ▸ hf g hg))
      refine .cons ?_ (ih hes' hfs' (fun e' he' => ?_) fun f' hf' => ?_)
      · obtain ⟨g, hg, heg, hR⟩ := hright e (by simp)
        rcases List.mem_cons.1 hg with rfl | hg
        · exact ⟨hkey, hR⟩
        · exact absurd (hkey.symm.trans heg) (ne_of_mem_tail hfs hg)
      · obtain ⟨g, hg, heg, hR⟩ := hright e' (by simp [he'])
        rcases List.mem_cons.1 hg with rfl | hg
        · exact absurd (hkey.trans heg.symm) (ne_of_mem_tail hes he')
        · exact ⟨g, hg, heg, hR⟩
      · obtain ⟨g, hg, hgf⟩ := hleft f' (by simp [hf'])
        rcases List.mem_cons.1 hg with rfl | hg
        · exact absurd (hkey.symm.trans hgf) (ne_of_mem_tail hfs hf')
        · exact ⟨g, hg, hgf⟩

variable [DecidableEq κ]

theorem find?_eq_some_iff {m : SortedMap κ α} {k : κ} {a : α} :
    m.find? k = some a ↔ (k, a) ∈ m.entries := by
  rw [find?, Option.map_eq_some_iff]
  constructor
  · rintro ⟨e, he, rfl⟩
    have hk : e.1 = k := by simpa using List.find?_some he
    exact hk ▸ List.mem_of_find?_eq_some he
  · intro hmem
    obtain ⟨e, he⟩ := Option.isSome_iff_exists.1
      (List.find?_isSome (p := fun e : κ × α => decide (e.1 = k)) |>.2 ⟨_, hmem, by simp⟩)
    have hkeys : (m.entries.map (·.1)).Nodup := List.pairwise_map.2 <|
      m.ascending.imp fun {e f} hlt heq => by
        rw [heq] at hlt
        exact Std.Asymm.asymm _ _ hlt hlt
    have hk : e.1 = k := by simpa using List.find?_some he
    have := List.inj_on_of_nodup_map hkeys (List.mem_of_find?_eq_some he) hmem hk
    exact ⟨e, he, by rw [this]⟩

/-- Maps with the same keys, and with related values for each, correspond entry by entry. -/
theorem forall₂_entries {R : α → β → Prop} {m : SortedMap κ α} {n : SortedMap κ β}
    (h : ∀ k, Option.Rel R (m.find? k) (n.find? k)) :
    List.Forall₂ (fun e f => e.1 = f.1 ∧ R e.2 f.2) m.entries n.entries := by
  refine forall₂_of_ascending m.ascending n.ascending (fun e he => ?_) fun f hf => ?_
  · have hrel := h e.1
    rw [find?_eq_some_iff.2 he] at hrel
    cases hn : n.find? e.1 with
    | none => rw [hn] at hrel; cases hrel
    | some b =>
      rw [hn] at hrel
      cases hrel with
      | some hR => exact ⟨_, find?_eq_some_iff.1 hn, rfl, hR⟩
  · have hrel := h f.1
    rw [find?_eq_some_iff.2 hf] at hrel
    cases hm : m.find? f.1 with
    | none => rw [hm] at hrel; cases hrel
    | some a => exact ⟨_, find?_eq_some_iff.1 hm, rfl⟩

end Correspondence

end EventScript.SortedMap
