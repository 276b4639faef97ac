import EventScript.Datum.Wire
import EventScript.Proofs.Lists
import EventScript.RichText
import Mathlib.Algebra.Order.BigOperators.Group.List
import Mathlib.Algebra.Order.Ring.Nat

/-!
How much a text takes up. Putting segments together keeps the bytes of their content, and adds
neither segments nor colors.
-/
namespace EventScript

open Wire

/-- How many bytes the content takes. -/
def Segment.width (s : Segment) : Nat := (utf8 s.content).length

namespace RichText

variable {t : RichText} {s : Segment} {ss : List Segment}

def width (t : RichText) : Nat := (t.lastFirst.map Segment.width).sum

theorem length_utf8_append (s t : String) :
    (utf8 (s ++ t)).length = (utf8 s).length + (utf8 t).length := by
  simp [utf8]

theorem width_push : (t.push s).width = t.width + s.width := by
  unfold push
  split
  · rename_i h
    have : s.width = 0 := by
      rw [Segment.width, h]
      rfl
    rw [this, Nat.add_zero]
  · obtain ⟨_ | ⟨l, ls⟩⟩ := t
    · simp [width, joinLast]
    · simp only [width, joinLast]
      split
      · simp [Segment.width, length_utf8_append]
        omega
      · simp
        omega

theorem length_push_le : (t.push s).lastFirst.length ≤ t.lastFirst.length + 1 := by
  unfold push
  split
  · exact Nat.le_succ _
  · obtain ⟨_ | ⟨l, ls⟩⟩ := t
    · simp [joinLast]
    · simp only [joinLast]
      split <;> simp

theorem color_of_mem_push {l : Segment} (hl : l ∈ (t.push s).lastFirst) :
    l.color = s.color ∨ ∃ k ∈ t.lastFirst, l.color = k.color := by
  unfold push at hl
  split at hl
  · exact .inr ⟨l, hl, rfl⟩
  · obtain ⟨_ | ⟨k, ks⟩⟩ := t
    · exact .inl (by simp_all [joinLast])
    · simp only [joinLast] at hl
      split at hl <;> grind

theorem width_foldl : (ss.foldl push t).width = t.width + (ss.map Segment.width).sum := by
  induction ss generalizing t with
  | nil => simp
  | cons s ss ih =>
    rw [List.foldl_cons, ih, width_push, List.map_cons, List.sum_cons, Nat.add_assoc]

theorem color_of_mem_foldl {P : Option UInt32 → Prop} (ht : ∀ l ∈ t.lastFirst, P l.color)
    (hss : ∀ s ∈ ss, P s.color) : ∀ l ∈ (ss.foldl push t).lastFirst, P l.color := by
  induction ss generalizing t with
  | nil => exact ht
  | cons s ss ih =>
    have hss := List.forall_mem_cons.1 hss
    refine ih (fun l hl => ?_) hss.2
    rcases color_of_mem_push hl with h | ⟨k, hk, h⟩
    · exact h ▸ hss.1
    · exact h ▸ ht k hk

theorem width_ofSegments : (ofSegments ss).width = (ss.map Segment.width).sum := by
  rw [ofSegments, width_foldl]
  simp [width, empty]

theorem length_ofSegments_le : (ofSegments ss).segments.length ≤ ss.length := by
  simpa [ofSegments, segments, empty] using
    foldl_measure_le (·.lastFirst.length) (fun _ _ => length_push_le) ss empty

theorem color_of_mem_ofSegments {P : Option UInt32 → Prop} (h : ∀ s ∈ ss, P s.color) :
    ∀ l ∈ (ofSegments ss).segments, P l.color := fun l hl =>
  color_of_mem_foldl (by simp [empty]) h l (List.mem_reverse.1 hl)

theorem width_le_of_mem (h : s ∈ t.segments) : s.width ≤ t.width :=
  List.le_sum_of_mem (List.mem_map_of_mem (List.mem_reverse.1 h))

end RichText

end EventScript
