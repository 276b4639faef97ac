import EventScript.RichText.Markup
import Mathlib.Data.List.Chain

/-!
Texts are in canonical form however they are built: no segment is empty, and neighbours differ in
color. Such a text is what its own segments build.
-/
namespace EventScript.RichText

/-- No segment is empty, and neighbours differ in color. -/
structure Canonical (t : RichText) : Prop where
  nonempty : ∀ s ∈ t.lastFirst, s.content ≠ ""
  apart : t.lastFirst.IsChain fun later s => later.color ≠ s.color

/-- The texts that can be built. -/
inductive Built : RichText → Prop
  | empty : Built empty
  | plain (content) : Built (plain content)
  | markup {source t} : parseMarkup source = .ok t → Built t
  | push {t} (s) : Built t → Built (t.push s)
  | append {t u} : Built t → Built u → Built (t.append u)
  | colored {t color u} : Built t → t.withColor color = .ok u → Built u
  | ofSegments (segments) : Built (ofSegments segments)

variable {t u : RichText} {s : Segment} {ss : List Segment}

theorem canonical_empty : empty.Canonical := ⟨by simp [empty], .nil⟩

theorem Canonical.push (h : t.Canonical) (s : Segment) : (t.push s).Canonical := by
  unfold RichText.push
  split
  · exact h
  · rename_i hs
    obtain ⟨_ | ⟨l, ls⟩⟩ := t
    · exact ⟨by simpa [joinLast] using hs, .singleton _⟩
    · rw [joinLast]
      split
      · have hl : l.content ≠ "" := h.nonempty l (by simp)
        refine ⟨?_, ?_⟩
        · intro s' hs'
          rcases List.mem_cons.1 hs' with rfl | hs'
          · simp [hl]
          · exact h.nonempty s' (by simp [hs'])
        · exact List.isChain_cons.2 (List.isChain_cons.1 h.apart)
      · rename_i hne
        refine ⟨?_, .cons_cons (Ne.symm hne) h.apart⟩
        exact List.forall_mem_cons.2 ⟨hs, h.nonempty⟩

theorem Canonical.foldl (h : t.Canonical) (ss : List Segment) :
    (ss.foldl RichText.push t).Canonical := by
  induction ss generalizing t with
  | nil => exact h
  | cons s ss ih => exact ih (h.push s)

theorem canonical_ofSegments (ss : List Segment) : (ofSegments ss).Canonical :=
  canonical_empty.foldl ss

theorem Canonical.parseMarkupFrom {offset : Nat} {color : Option UInt32} {run cs : List Char}
    (h : t.Canonical) (hu : parseMarkupFrom offset t color run cs = .ok u) : u.Canonical := by
  fun_induction RichText.parseMarkupFrom offset t color run cs with
  | case1 => cases hu; exact h.push _
  | case2 _ _ _ _ _ ih => exact ih (h.push _) hu
  | case3 _ _ _ _ _ _ _ _ ih => exact ih (h.push _) hu
  | case4 => cases hu
  | case5 _ _ _ _ _ _ _ _ ih => exact ih h hu

theorem Built.canonical (h : t.Built) : t.Canonical := by
  induction h with
  | empty => exact canonical_empty
  | plain content => exact canonical_empty.push _
  | markup h => exact canonical_empty.parseMarkupFrom h
  | push s _ ih => exact ih.push s
  | append _ _ ih _ => exact ih.foldl _
  | colored _ h =>
    unfold withColor at h
    split at h
    · cases h
    · cases h
      exact canonical_ofSegments _
  | ofSegments ss => exact canonical_ofSegments ss

theorem Canonical.ofSegments_segments (h : t.Canonical) : ofSegments t.segments = t := by
  obtain ⟨l⟩ := t
  induction l with
  | nil => rfl
  | cons s ss ih =>
    have hrest : Canonical ⟨ss⟩ := ⟨(List.forall_mem_cons.1 h.nonempty).2, h.apart.tail⟩
    have hs : s.content ≠ "" := h.nonempty s (by simp)
    have ih := ih hrest
    simp only [ofSegments, segments] at ih ⊢
    rw [List.reverse_cons, List.foldl_append, ih, List.foldl_cons, List.foldl_nil,
      RichText.push, if_neg hs]
    cases ss with
    | nil => rfl
    | cons l ls =>
      have hne : l.color ≠ s.color := ((List.isChain_cons_cons.1 h.apart).1).symm
      rw [joinLast, if_neg hne]

end EventScript.RichText
