import Mathlib
import EventScript.Proofs.Codec.Decoded
import EventScript.Proofs.RichText.Colored

/-!
Rich text is a canonical form. However a text has come about, it has no empty segment and no two
neighbours of one color, so it is determined by its characters with their colors: appending texts is
appending their characters.
-/
namespace EventScript

/-- The datum `e` is `d` itself or lies somewhere inside it. -/
def Datum.Within (d e : Datum) : Prop := Relation.ReflTransGen (fun d e => e ∈ d.children) d e

namespace RichText

/-- The texts that there can be: put together in any way, or found in something that was read. -/
inductive Obtained : RichText → Prop
  | empty : Obtained empty
  | plain (content) : Obtained (plain content)
  | push {t} (s) : Obtained t → Obtained (t.push s)
  | append {t u} : Obtained t → Obtained u → Obtained (t.append u)
  | colored {t color u} : Obtained t → t.withColor color = .ok u → Obtained u
  | ofSegments (segments) : Obtained (ofSegments segments)
  | markup {source t} : parseMarkup source = .ok t → Obtained t
  | decoded {reader d t} : (Decoder.datum.run.run reader).1 = .ok d → d.Within (.text t) →
      Obtained t

variable {t u v : RichText}

theorem canonical_of_decoded {reader : Reader} {d : Datum}
    (h : (Decoder.datum.run.run reader).1 = .ok d) (ht : d.Within (.text t)) : t.Canonical := by
  have hfaithful : d.Everywhere Datum.Faithful :=
    Decoder.reads_datumTo _ reader d _ (Prod.ext h rfl)
  exact (hfaithful _ ht).1

theorem Obtained.canonical (h : t.Obtained) : t.Canonical := by
  induction h with
  | empty => exact canonical_empty
  | plain content => exact canonical_empty.push _
  | push s _ ih => exact ih.push s
  | append _ _ ih _ => exact ih.foldl _
  | colored _ h =>
    unfold withColor at h
    split at h <;> cases h
    exact canonical_ofSegments _
  | ofSegments ss => exact canonical_ofSegments ss
  | markup h => exact canonical_empty.parseMarkupFrom h
  | decoded h ht => exact canonical_of_decoded h ht

theorem withColor_of_le {color : UInt32} (h : color ≤ maxColor) (t : RichText) :
    t.withColor color = .ok (t.recolor color) := if_neg (UInt32.not_lt.2 h)

theorem withColor_of_lt {color : UInt32} (h : maxColor < color) (t : RichText) :
    t.withColor color = .error (.colorOutOfRange color) := if_pos h

/-- What a text is, is which characters it has in which colors. -/
theorem determined_by_characters (ht : t.Obtained) (hu : u.Obtained) (hv : v.Obtained) :
    (∀ s ∈ t.segments, s.content ≠ "") ∧
    (t.segments.IsChain fun s next => s.color ≠ next.color) ∧
    (t = u ↔ t.colored = u.colored) ∧
    (t.append u).append v = t.append (u.append v) ∧
    empty.append t = t ∧ t.append empty = t ∧
    (t.append u).contents = t.contents ++ u.contents ∧
    ∀ color, if color ≤ maxColor then ∃ w, t.withColor color = .ok w ∧ w.contents = t.contents
      else t.withColor color = .error (.colorOutOfRange color) := by
  have equal {x y : RichText} (hx : x.Obtained) (hy : y.Obtained) (h : x.colored = y.colored) :
      x = y := (hx.canonical.eq_iff hy.canonical).2 h
  refine ⟨fun s hs => ht.canonical.nonempty s (List.mem_reverse.1 hs),
    ht.canonical.isChain_segments, ht.canonical.eq_iff hu.canonical, ?_, ?_, rfl,
    contents_append, fun color => ?_⟩
  · exact equal ((ht.append hu).append hv) (ht.append (hu.append hv)) (by simp)
  · exact equal (.append .empty ht) ht (by simp)
  · split
    · rename_i hcolor
      exact ⟨_, withColor_of_le hcolor t, contents_recolor color⟩
    · rename_i hcolor
      exact withColor_of_lt (UInt32.not_le.1 hcolor) t

/-- Two segments of one color that were read, a tag that colors nothing, and empty pushes. -/
theorem determined_by_characters_joined :
    (Decoder.datum.run.run (.ofBytes [8, 2, 0, 1, 97, 0, 1, 98])).1 = .ok (.text (.plain "ab")) ∧
    parseMarkup "<#0000ff></>c" = .ok (.plain "c") ∧
    ((RichText.plain "ab").append (.plain "c")).append
      ((RichText.empty.push ⟨"", none⟩).push ⟨"d", none⟩) = .plain "abcd" := by
  have hread : (Decoder.datum.run.run (.ofBytes [8, 2, 0, 1, 97, 0, 1, 98])).1 =
      .ok (.text (.plain "ab")) := by cbv
  have hmarkup : parseMarkup "<#0000ff></>c" = .ok (.plain "c") := by cbv
  have hpushed := (Obtained.empty.push ⟨"", none⟩).push ⟨"d", none⟩
  obtain ⟨_, _, _, hassoc, _⟩ :=
    determined_by_characters (.decoded hread .refl) (.markup hmarkup) hpushed
  refine ⟨hread, hmarkup, hassoc.trans ?_⟩
  decide

end RichText

end EventScript
