import Std.Data.HashMap

/-!
Tables with a position for every key, in the order in which keys came. An index finds positions
quickly; that it agrees with the entries is part of the type.
-/
namespace EventScript

structure Table (κ α : Type) [BEq κ] [Hashable κ] [LawfulBEq κ] where
  entries : Array (κ × α) := #[]
  index : Std.HashMap κ Nat := ∅
  index_eq_some_iff : ∀ (k : κ) (i : Nat),
    index[k]? = some i ↔ ∃ a, entries[i]? = some (k, a) := by simp

namespace Table

variable {κ α : Type} [BEq κ] [Hashable κ] [LawfulBEq κ]

def empty : Table κ α := {}

instance : Inhabited (Table κ α) := ⟨empty⟩

def size (t : Table κ α) : Nat := t.entries.size

/-- The position of a key. -/
def position? (t : Table κ α) (k : κ) : Option Nat := t.index[k]?

def contains (t : Table κ α) (k : κ) : Bool := (t.position? k).isSome

def find? (t : Table κ α) (k : κ) : Option α :=
  (t.position? k).bind fun i => (t.entries[i]?).map (·.2)

def values (t : Table κ α) : List α := t.entries.toList.map (·.2)

/-- A key that is there keeps its position and gets the new value; another comes last. -/
def insert (t : Table κ α) (k : κ) (a : α) : Table κ α :=
  let ⟨entries, index, index_eq_some_iff⟩ := t
  match h : index[k]? with
  | some i =>
    { entries := entries.setIfInBounds i (k, a)
      index
      index_eq_some_iff := by
        intro l j
        obtain ⟨b, hb⟩ := (index_eq_some_iff k i).1 h
        have hi := (Array.getElem?_eq_some_iff.1 hb).1
        rw [index_eq_some_iff l j, Array.getElem?_setIfInBounds]
        split
        · subst j; simp [(Array.getElem?_eq_some_iff.1 hb).2, hi]
        · rfl }
  | none =>
    let last := entries.size
    { entries := entries.push (k, a)
      index := index.insert k last
      index_eq_some_iff := by
        intro l j
        have hl := index_eq_some_iff l j
        have hout : entries[entries.size]? = none := by simp
        rw [Std.HashMap.getElem?_insert, Array.getElem?_push]
        by_cases hkl : k = l
        · subst hkl
          by_cases hj : j = entries.size
          · simp [last, hj]
          · simp only [beq_self_eq_true, if_true, Option.some.injEq, last, hj, if_false, Ne.symm hj]
            simp [← hl, h]
        · have hne : (k == l) = false := by simpa using hkl
          by_cases hj : j = entries.size
          · subst hj; simp [hne, hkl, hl]
          · simp [hne, hj, hl] }

end Table

end EventScript
