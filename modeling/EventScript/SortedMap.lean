/-!
Small maps whose entries stand in strictly ascending order of their keys.
-/
namespace EventScript

/-- Orders that sort. -/
class TransLT (κ : Type) [LT κ] : Prop where
  lt_trans : ∀ {a b c : κ}, a < b → b < c → a < c

instance : TransLT String := ⟨String.lt_trans⟩

structure SortedMap (κ α : Type) [LT κ] where
  entries : List (κ × α) := []
  ascending : entries.Pairwise (·.1 < ·.1) := by exact .nil

namespace SortedMap

variable {κ α : Type} [LT κ]

def empty : SortedMap κ α := {}

instance : Inhabited (SortedMap κ α) := ⟨empty⟩

def size (m : SortedMap κ α) : Nat := m.entries.length

def find? [DecidableEq κ] (m : SortedMap κ α) (k : κ) : Option α :=
  (m.entries.find? (·.1 = k)).map (·.2)

/-- Puts an entry in its place, instead of one whose key is neither below nor above. -/
def insertEntry [DecidableLT κ] (k : κ) (a : α) : List (κ × α) → List (κ × α)
  | [] => [(k, a)]
  | (l, b) :: rest =>
    if k < l then (k, a) :: (l, b) :: rest
    else if l < k then (l, b) :: insertEntry k a rest
    else (l, a) :: rest

theorem mem_insertEntry [DecidableLT κ] {k : κ} {a : α} {es : List (κ × α)} {e : κ × α}
    (h : e ∈ insertEntry k a es) : e.1 = k ∨ ∃ d ∈ es, d.1 = e.1 := by
  fun_induction insertEntry k a es with
  | case4 l b rest =>
    rcases List.mem_cons.1 h with rfl | h
    · exact .inr ⟨(l, b), by simp⟩
    · exact .inr ⟨e, by simp [h]⟩
  | _ => grind

theorem pairwise_insertEntry [DecidableLT κ] [TransLT κ]
    (k : κ) (a : α) {es : List (κ × α)} (h : es.Pairwise (·.1 < ·.1)) :
    (insertEntry k a es).Pairwise (·.1 < ·.1) := by
  fun_induction insertEntry k a es with
  | case1 => simp
  | case2 l b rest hk =>
    refine List.pairwise_cons.2 ⟨fun e he => ?_, h⟩
    rcases List.mem_cons.1 he with rfl | he
    · exact hk
    · exact TransLT.lt_trans hk ((List.pairwise_cons.1 h).1 e he)
  | case3 l b rest _ hl ih =>
    have h := List.pairwise_cons.1 h
    refine List.pairwise_cons.2 ⟨fun e he => ?_, ih h.2⟩
    rcases mem_insertEntry he with hek | ⟨d, hd, hde⟩
    · exact hek ▸ hl
    · exact hde ▸ h.1 d hd
  | case4 l b rest =>
    have h := List.pairwise_cons.1 h
    exact List.pairwise_cons.2 ⟨h.1, h.2⟩

def insert [DecidableLT κ] [TransLT κ]
    (m : SortedMap κ α) (k : κ) (a : α) : SortedMap κ α :=
  ⟨insertEntry k a m.entries, pairwise_insertEntry k a m.ascending⟩

def erase [DecidableEq κ] (m : SortedMap κ α) (k : κ) : SortedMap κ α :=
  ⟨m.entries.filter (·.1 ≠ k), m.ascending.sublist List.filter_sublist⟩

def ofList [DecidableLT κ] [TransLT κ]
    (es : List (κ × α)) : SortedMap κ α :=
  es.foldl (fun m (k, a) => m.insert k a) empty

end SortedMap

end EventScript
