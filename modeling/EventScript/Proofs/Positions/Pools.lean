import Mathlib.Data.List.Perm.Subperm
import EventScript.Proofs.Lowering.Growth

/-!
Two lowerings of the same side by side, each with pools of its own. What one of them adds to its
pools the other adds too, unless it is there already. So the other is never refused for a pool that
is full, as long as all that both have asked for fits.
-/
namespace EventScript

namespace Table

variable {κ α : Type} [BEq κ] [Hashable κ] [LawfulBEq κ] {t u : Table κ α} {k : κ} {a : α}

def Has (t : Table κ α) (k : κ) : Prop := ∃ a, t.find? k = some a

theorem has_of_entry {i : Nat} (h : t.entries[i]? = some (k, a)) : t.Has k := ⟨a, find?_of_entry h⟩

theorem has_insert_iff {l : κ} : (t.insert k a).Has l ↔ l = k ∨ t.Has l := by
  by_cases hl : l = k
  · subst hl
    simp [Has]
  · simp [Has, find?_insert_of_ne hl, hl]

def keys (t : Table κ α) : List κ := t.entries.toList.map (·.1)

theorem mem_keys_iff : k ∈ t.keys ↔ t.Has k := by
  simp only [keys, List.mem_map, Array.mem_toList_iff, Prod.exists, exists_and_right,
    exists_eq_right, Has, find?_eq_some_iff, Array.mem_iff_getElem?]

theorem nodup_keys (t : Table κ α) : t.keys.Nodup := by
  refine List.pairwise_iff_getElem.2 fun i j hi hj hij heq => (Nat.ne_of_lt hij) ?_
  simp only [keys, List.length_map, Array.length_toList] at hi hj
  simp only [keys, List.getElem_map, Array.getElem_toList] at heq
  have hleft : t.entries[i]? = some (t.entries[i].1, t.entries[i].2) := Array.getElem?_eq_getElem hi
  have hright : t.entries[j]? = some (t.entries[j].1, t.entries[j].2) :=
    Array.getElem?_eq_getElem hj
  rw [heq] at hleft
  exact entry_unique hleft hright

/-- A table with fewer keys is no larger. -/
theorem size_le_of_has (h : ∀ k, t.Has k → u.Has k) : t.size ≤ u.size := by
  have hsubset : t.keys ⊆ u.keys := fun k hk => mem_keys_iff.2 (h k (mem_keys_iff.1 hk))
  simpa [keys, size] using (List.subperm_of_subset t.nodup_keys hsubset).length_le

/-- The table with the key, which keeps its value if it is there. -/
def adding (t : Table κ α) (k : κ) (a : α) : Table κ α :=
  match t.position? k with
  | some _ => t
  | none => t.insert k a

theorem position?_of_has (h : t.Has k) : ∃ i, t.position? k = some i := by
  obtain ⟨a, ha⟩ := h
  obtain ⟨i, hi⟩ := find?_eq_some_iff.1 ha
  exact ⟨i, position?_of_entry hi⟩

theorem find?_of_not_has (h : ¬t.Has k) : t.find? k = none := by
  cases hk : t.find? k with
  | none => rfl
  | some b => exact absurd ⟨b, hk⟩ h

theorem position?_of_not_has (h : ¬t.Has k) : t.position? k = none :=
  position?_eq_none_iff.2 (find?_of_not_has h)

theorem position?_insert_of_not_has (h : ¬t.Has k) : (t.insert k a).position? k = some t.size := by
  refine position?_eq_some_iff.2 ⟨a, ?_⟩
  simp [entries_insert_of_find?_none (find?_of_not_has h), size]

theorem adding_of_has (h : t.Has k) : t.adding k a = t := by
  obtain ⟨i, hi⟩ := position?_of_has h
  rw [adding, hi]

theorem adding_of_not_has (h : ¬t.Has k) : t.adding k a = t.insert k a := by
  rw [adding, position?_of_not_has h]

theorem has_adding_iff {l : κ} : (t.adding k a).Has l ↔ l = k ∨ t.Has l := by
  by_cases hk : t.Has k
  · rw [adding_of_has hk]
    exact ⟨.inr, fun h => h.elim (fun heq => heq ▸ hk) id⟩
  · rw [adding_of_not_has hk, has_insert_iff]

theorem entry_adding_of_entry {i : Nat} {e : κ × α} (h : t.entries[i]? = some e) :
    (t.adding k a).entries[i]? = some e := by
  by_cases hk : t.Has k
  · rwa [adding_of_has hk]
  · rw [adding_of_not_has hk]
    exact entry_insert_of_entry (find?_of_not_has hk) h

theorem size_adding_of_not_has (h : ¬t.Has k) : (t.adding k a).size = t.size + 1 := by
  rw [adding_of_not_has h, size, entries_insert_of_find?_none (find?_of_not_has h),
    Array.size_push, size]

end Table

namespace Pools

/-- All positions can be named by code. -/
structure Fits (p : Pools) : Prop where
  literals : p.literals.size ≤ maxPosition + 1
  hosts : p.hosts.size ≤ maxPosition + 1

/-- What is in these pools is in the others, if at another position. -/
structure Inside (p q : Pools) : Prop where
  literals : ∀ l, p.literals.Has l → q.literals.Has l
  hosts : ∀ name, p.hosts.Has name → q.hosts.Has name

/-- Nothing is in these pools that is not in one of two others. -/
structure Within (p q r : Pools) : Prop where
  literals : ∀ l, p.literals.Has l → q.literals.Has l ∨ r.literals.Has l
  hosts : ∀ name, p.hosts.Has name → q.hosts.Has name ∨ r.hosts.Has name

/-- What two lowerings of the same do to their pools `p` and `q`. -/
structure Advance (registry : Registry) (p q p' q' : Pools) : Prop where
  left : p.Extends p'
  right : q.Extends q'
  leftSound : p.Sound registry → p'.Sound registry
  rightSound : q.Sound registry → q'.Sound registry
  leftFits : p.Fits → p'.Fits
  within : q'.Within q p'

variable {registry : Registry} {p q p₁ q₁ p₂ q₂ : Pools} {l : Literal} {name : String}
  {call : HostFunction} {op : Operation}

theorem Extends.has_literal (h : p.Extends q) (hl : p.literals.Has l) :
    q.literals.Has l := by
  obtain ⟨a, ha⟩ := hl
  obtain ⟨i, hi⟩ := Table.find?_eq_some_iff.1 ha
  exact Table.has_of_entry (h.literals hi)

theorem Extends.has_host (h : p.Extends q) (hname : p.hosts.Has name) :
    q.hosts.Has name := by
  obtain ⟨a, ha⟩ := hname
  obtain ⟨i, hi⟩ := Table.find?_eq_some_iff.1 ha
  exact Table.has_of_entry (h.hosts hi)

theorem Extends.inside (h : p.Extends q) : p.Inside q :=
  ⟨fun _ => h.has_literal, fun _ => h.has_host⟩

theorem Within.inside {r r' : Pools} (h : p.Within q r) (hq : q.Inside r') (hr : r.Inside r') :
    p.Inside r' where
  literals l hl := (h.literals l hl).elim (hq.literals l) (hr.literals l)
  hosts name hname := (h.hosts name hname).elim (hq.hosts name) (hr.hosts name)

theorem Fits.of_inside (h : q.Fits) (hpq : p.Inside q) : p.Fits where
  literals := Nat.le_trans (Table.size_le_of_has hpq.literals) h.literals
  hosts := Nat.le_trans (Table.size_le_of_has hpq.hosts) h.hosts

theorem Fits.of_extends (h : q.Fits) (hpq : p.Extends q) : p.Fits := h.of_inside hpq.inside

theorem fits_empty : ({} : Pools).Fits := ⟨by simp [Table.size], by simp [Table.size]⟩

theorem Advance.refl (registry : Registry) (p q : Pools) : Advance registry p q p q :=
  ⟨.refl _, .refl _, id, id, id, ⟨fun _ => .inl, fun _ => .inl⟩⟩

theorem Advance.trans (h : Advance registry p q p₁ q₁) (h' : Advance registry p₁ q₁ p₂ q₂) :
    Advance registry p q p₂ q₂ where
  left := h.left.trans h'.left
  right := h.right.trans h'.right
  leftSound := fun hp => h'.leftSound (h.leftSound hp)
  rightSound := fun hq => h'.rightSound (h.rightSound hq)
  leftFits := fun hp => h'.leftFits (h.leftFits hp)
  within := by
    refine ⟨fun l hl => ?_, fun name hname => ?_⟩
    · rcases h'.within.literals l hl with hl | hl
      · exact (h.within.literals l hl).imp_right h'.left.has_literal
      · exact .inr hl
    · rcases h'.within.hosts name hname with hname | hname
      · exact (h.within.hosts name hname).imp_right h'.left.has_host
      · exact .inr hname

/-- A literal gets a position just if it has one or there is one left. -/
theorem literal_eq_ok {span : Span} {i : Nat} : p.literal l span = .ok (i, q) ↔
    (p.literals.Has l ∨ p.literals.size ≤ maxPosition) ∧
      q = { p with literals := p.literals.adding l () } ∧
        (p.literals.adding l ()).position? l = some i := by
  obtain ⟨literals, hosts⟩ := p
  unfold literal
  by_cases hl : literals.Has l
  · obtain ⟨j, hj⟩ := Table.position?_of_has hl
    simp only [hj, Table.adding_of_has hl, hl, true_or, true_and, Except.ok.injEq, Prod.mk.injEq,
      Option.some.injEq, and_comm, eq_comm]
  · simp only [Table.position?_of_not_has hl, hl, false_or, Table.adding_of_not_has hl,
      Table.position?_insert_of_not_has hl]
    split
    · rename_i hsize
      simp only [hsize, true_and, Except.ok.injEq, Prod.mk.injEq, Option.some.injEq, and_comm,
        eq_comm]
    · rename_i hsize
      simp [hsize, refuse]

theorem host_eq_ok {span : Span} {i : Nat} :
    p.host name call span = .ok (i, q) ↔ (p.hosts.Has name ∨ p.hosts.size ≤ maxPosition) ∧
      q = { p with hosts := p.hosts.adding name call } ∧
        (p.hosts.adding name call).position? name = some i := by
  obtain ⟨literals, hosts⟩ := p
  unfold host
  by_cases hname : hosts.Has name
  · obtain ⟨j, hj⟩ := Table.position?_of_has hname
    simp only [hj, Table.adding_of_has hname, hname, true_or, true_and, Except.ok.injEq,
      Prod.mk.injEq, Option.some.injEq, and_comm, eq_comm]
  · simp only [Table.position?_of_not_has hname, hname, false_or, Table.adding_of_not_has hname,
      Table.position?_insert_of_not_has hname]
    split
    · rename_i hsize
      simp only [hsize, true_and, Except.ok.injEq, Prod.mk.injEq, Option.some.injEq, and_comm,
        eq_comm]
    · rename_i hsize
      simp [hsize, refuse]

theorem has_literal_or_room (h : Fits { q with literals := q.literals.adding l () }) :
    q.literals.Has l ∨ q.literals.size ≤ maxPosition := by
  by_cases hl : q.literals.Has l
  · exact .inl hl
  · have hsize := h.literals
    rw [Table.size_adding_of_not_has hl] at hsize
    exact .inr (Nat.le_of_succ_le_succ hsize)

theorem has_host_or_room (h : Fits { q with hosts := q.hosts.adding name call }) :
    q.hosts.Has name ∨ q.hosts.size ≤ maxPosition := by
  by_cases hname : q.hosts.Has name
  · exact .inl hname
  · have hsize := h.hosts
    rw [Table.size_adding_of_not_has hname] at hsize
    exact .inr (Nat.le_of_succ_le_succ hsize)

/-- Both sides ask for the same literal. -/
theorem advance_literal (hroom : p.literals.Has l ∨ p.literals.size ≤ maxPosition) :
    Advance registry p q { p with literals := p.literals.adding l () }
      { q with literals := q.literals.adding l () } where
  left := ⟨Table.entry_adding_of_entry, id⟩
  right := ⟨Table.entry_adding_of_entry, id⟩
  leftSound := id
  rightSound := id
  leftFits h := by
    refine ⟨?_, h.hosts⟩
    by_cases hl : p.literals.Has l
    · simpa only [Table.adding_of_has hl] using h.literals
    · simpa only [Table.size_adding_of_not_has hl] using Nat.succ_le_succ (hroom.resolve_left hl)
  within := by
    refine ⟨fun k hk => ?_, fun _ => .inl⟩
    rcases Table.has_adding_iff.1 hk with rfl | hk
    · exact .inr (Table.has_adding_iff.2 (.inl rfl))
    · exact .inl hk

theorem sound_adding (hop : registry.find? op.name = some op) (haction : op.action = .host call)
    (h : p.Sound registry) : Sound registry { p with hosts := p.hosts.adding op.name call } :=
  @fun i name c hc => by
    by_cases hname : p.hosts.Has op.name
    · rw [Table.adding_of_has hname] at hc
      exact h hc
    · simp only [Table.adding_of_not_has hname] at hc
      by_cases heq : name = op.name
      · subst heq
        have hfind := Table.find?_of_entry hc
        rw [Table.find?_insert_self] at hfind
        exact ⟨op, hop, haction.trans (congrArg _ (Option.some.inj hfind))⟩
      · exact h ((Table.entry_insert_of_ne heq).1 hc)

/-- Both sides ask for the callback of the same operation. -/
theorem advance_host (hop : registry.find? op.name = some op) (haction : op.action = .host call)
    (hroom : p.hosts.Has op.name ∨ p.hosts.size ≤ maxPosition) :
    Advance registry p q { p with hosts := p.hosts.adding op.name call }
      { q with hosts := q.hosts.adding op.name call } where
  left := ⟨id, Table.entry_adding_of_entry⟩
  right := ⟨id, Table.entry_adding_of_entry⟩
  leftSound := sound_adding hop haction
  rightSound := sound_adding hop haction
  leftFits h := by
    refine ⟨h.literals, ?_⟩
    by_cases hname : p.hosts.Has op.name
    · simpa only [Table.adding_of_has hname] using h.hosts
    · simpa only [Table.size_adding_of_not_has hname] using
        Nat.succ_le_succ (hroom.resolve_left hname)
  within := by
    refine ⟨fun _ => .inl, fun k hk => ?_⟩
    rcases Table.has_adding_iff.1 hk with rfl | hk
    · exact .inr (Table.has_adding_iff.2 (.inl rfl))
    · exact .inl hk

/-- The position of a callback is that of the operation's own. -/
theorem entry_of_adding (hop : registry.find? op.name = some op) (haction : op.action = .host call)
    (h : p.Sound registry) {i : Nat}
    (hi : (p.hosts.adding op.name call).position? op.name = some i) :
    (p.hosts.adding op.name call).entries[i]? = some (op.name, call) := by
  obtain ⟨c, hc⟩ := Table.position?_eq_some_iff.1 hi
  obtain ⟨op', hop', haction'⟩ := sound_adding hop haction h hc
  cases hop.symm.trans hop'
  cases haction.symm.trans haction'
  exact hc

end Pools

end EventScript
