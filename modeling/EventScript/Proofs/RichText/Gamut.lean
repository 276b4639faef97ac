import EventScript.Proofs.RichText.Canonical
import EventScript.Proofs.RichText.Size
import EventScript.Proofs.Text.Hex

/-!
Colors of 24 bits. The colors that are read from six digits are such, and putting texts together
brings in no color that was in none of them.
-/
namespace EventScript.RichText

open Text

/-- All colors have 24 bits. -/
def InGamut (t : RichText) : Prop := ∀ s ∈ t.segments, ∀ color ∈ s.color, color ≤ maxColor

variable {t u : RichText} {color : UInt32}

theorem inGamut_empty : empty.InGamut := by simp [InGamut, segments, empty]

theorem InGamut.foldl (ht : t.InGamut) {ss : List Segment}
    (hss : ∀ s ∈ ss, ∀ color ∈ s.color, color ≤ maxColor) : (ss.foldl RichText.push t).InGamut := by
  intro l hl
  refine color_of_mem_foldl (P := fun c => ∀ color ∈ c, color ≤ maxColor) (fun s hs => ?_) hss l
    (List.mem_reverse.1 hl)
  exact ht s (List.mem_reverse.2 hs)

theorem InGamut.push (ht : t.InGamut) {s : Segment} (hs : ∀ color ∈ s.color, color ≤ maxColor) :
    (t.push s).InGamut :=
  show ([s].foldl RichText.push t).InGamut from ht.foldl (List.forall_mem_singleton.2 hs)

theorem inGamut_plain (content : String) : (plain content).InGamut :=
  inGamut_empty.push (by simp)

theorem InGamut.append (ht : t.InGamut) (hu : u.InGamut) : (t.append u).InGamut := ht.foldl hu

theorem inGamut_recolor (h : color ≤ maxColor) (t : RichText) : (t.recolor color).InGamut := by
  refine inGamut_empty.foldl fun s hs => ?_
  obtain ⟨_, -, rfl⟩ := List.mem_map.1 hs
  rintro _ ⟨⟩
  exact h

theorem inGamut_of_withColor (h : t.withColor color = .ok u) : u.InGamut := by
  unfold withColor at h
  split at h
  · cases h
  · rename_i hle
    cases h
    exact inGamut_recolor (UInt32.not_lt.1 hle) t

theorem le_maxColor_of_colorOfDigits? {digits : List Char}
    (h : colorOfDigits? digits = some color) : color ≤ maxColor := by
  unfold colorOfDigits? at h
  split at h
  · rename_i hlength
    obtain ⟨n, hn, rfl⟩ := Option.map_eq_some_iff.1 h
    have hlt : n < 16 ^ 6 := hlength ▸ Hex.read?_lt hn
    rw [UInt32.le_iff_toNat_le, UInt32.toNat_ofNat']
    exact (Nat.mod_le n _).trans (Nat.le_of_lt_succ hlt)
  · cases h

theorem le_maxColor_of_readColor? {text : String} (h : readColor? text = some color) :
    color ≤ maxColor := by
  unfold readColor? at h
  split at h <;> exact le_maxColor_of_colorOfDigits? h

theorem le_maxColor_of_readTag? {cs rest : List Char} (h : readTag? cs = some (color, rest)) :
    color ≤ maxColor := by
  unfold readTag? at h
  split at h
  · obtain ⟨rgb, hrgb, heq⟩ := Option.map_eq_some_iff.1 h
    cases heq
    exact le_maxColor_of_colorOfDigits? hrgb
  · cases h

theorem InGamut.parseMarkupFrom {offset : Nat} {color : Option UInt32} {run cs : List Char}
    (ht : t.InGamut) (hcolor : ∀ rgb ∈ color, rgb ≤ maxColor)
    (hu : parseMarkupFrom offset t color run cs = .ok u) : u.InGamut := by
  fun_induction RichText.parseMarkupFrom offset t color run cs with
  | case1 =>
    cases hu
    exact ht.push hcolor
  | case2 _ _ _ _ _ ih => exact ih (ht.push hcolor) (by simp) hu
  | case3 _ _ _ _ _ _ _ read ih =>
    refine ih (ht.push hcolor) ?_ hu
    rintro _ ⟨⟩
    exact le_maxColor_of_readTag? read
  | case4 => cases hu
  | case5 _ _ _ _ _ _ _ _ ih => exact ih ht hcolor hu

theorem inGamut_of_parseMarkup {markup : String} (h : parseMarkup markup = .ok t) : t.InGamut :=
  inGamut_empty.parseMarkupFrom (by simp) h

end EventScript.RichText
