import EventScript.Proofs.Datum.Tree
import Mathlib

/-!
How large and how deep a datum is.
-/
namespace EventScript.Datum

variable {d : Datum} (weight : Datum → Nat)

/-- What a datum and all inside it weigh together. -/
def total (d : Datum) : Nat := weight d + (d.children.attach.map fun c => total c.1).sum
termination_by sizeOf d
decreasing_by exact sizeOf_lt_of_mem_children c.2

theorem total_eq (d : Datum) : d.total weight = weight d + (d.children.map (total weight)).sum := by
  rw [total, List.attach_map_val]

theorem total_of_children_nil (h : d.children = []) : d.total weight = weight d := by
  rw [total_eq, h, List.map_nil, List.sum_nil, Nat.add_zero]

theorem total_dict (entries : List (Datum × Datum)) : (dict entries).total weight =
    weight (dict entries) +
      (entries.map fun e => e.1.total weight + e.2.total weight).sum := by
  rw [total_eq, children]
  congr 1
  induction entries with
  | nil => rfl
  | cons e es ih => simp [ih, Nat.add_assoc]

/-- How many values there are, itself included. -/
def nodes : Datum → Nat := total fun _ => 1

/-- How many segments there are in texts. -/
def textSegments : Datum → Nat := total fun
  | text t => t.segments.length
  | _ => 0

/-- The datum `e` is inside `n` containers of which `d` is the outermost. -/
inductive LiesIn : (n : Nat) → (d e : Datum) → Prop
  | self (d : Datum) : LiesIn 0 d d
  | inside {n : Nat} {c d e : Datum} (hc : c ∈ d.children) (he : LiesIn n c e) :
    LiesIn (n + 1) d e

/-- There are fewer than `levels` containers around whatever is inside. -/
def Shallow (levels : Nat) (d : Datum) : Prop := ∀ n e, LiesIn n d e → n < levels

theorem shallow_succ {levels : Nat} (h : ∀ c ∈ d.children, c.Shallow levels) :
    d.Shallow (levels + 1) := by
  rintro n e (_ | ⟨hc, he⟩)
  · exact Nat.succ_pos _
  · exact Nat.succ_lt_succ (h _ hc _ _ he)

end EventScript.Datum
