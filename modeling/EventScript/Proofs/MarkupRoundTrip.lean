import EventScript.Proofs.MarkupReading
import EventScript.Proofs.RichText.Gamut

/-!
Markup that is written. Content is written as it is, and nothing protects an opening bracket in it:
the markup of a text that was read is read as this text if and only if nothing in a segment looks
like a tag. Taking tags away can bring such content about.
-/
namespace EventScript

open Text

namespace Segment

/-- Nothing in the content looks like a tag. -/
def TagFree (s : Segment) : Prop :=
  ¬ ['<', '#'] <:+: s.content.toList ∧ ¬ ['<', '/', '>'] <:+: s.content.toList

instance (s : Segment) : Decidable s.TagFree := inferInstanceAs (Decidable (_ ∧ _))

/-- The characters that the segment is written with. -/
def markup (s : Segment) : List Char :=
  match s.color with
  | some color =>
    ('<' :: '#' :: (Hex.fixed 6 color.toNat ++ ['>'])) ++ (s.content.toList ++ ['<', '/', '>'])
  | none => s.content.toList

end Segment

namespace Markup

variable {p w cs rest : List Char} {color set : Option UInt32} {out : List ColoredChar}

/-! ### Content without tags is read as it is -/

/-- What has no opening bracket but its first character ends before the next one. -/
theorem prefix_of_prefix_append (hp : '<' ∉ p.tail) (hw : w ≠ [])
    (hrest : ∀ c ∈ rest.head?, c = '<') (h : p <+: w ++ rest) : p <+: w := by
  rcases List.prefix_or_prefix_of_prefix h (List.prefix_append w rest) with h' | ⟨q, rfl⟩
  · exact h'
  · cases q with
    | nil => simp
    | cons c q =>
      have hc : c = '<' := by
        obtain ⟨r, hr⟩ := (List.prefix_append_right_inj w).1 h
        exact hrest c (by rw [← hr]; rfl)
      obtain ⟨b, w, rfl⟩ := List.exists_cons_of_ne_nil hw
      exact absurd (by simp [hc]) hp

theorem reads_append (hopen : ¬ ['<', '#'] <:+: w) (hclose : ¬ ['<', '/', '>'] <:+: w)
    (hrest : ∀ c ∈ rest.head?, c = '<') (h : Reads color rest out) :
    Reads color (w ++ rest) (w.map (·, color) ++ out) := by
  induction w with
  | nil => exact h
  | cons c w ih =>
    have hnot {p : List Char} (hp : '<' ∉ p.tail) (hfree : ¬ p <:+: c :: w) :
        ¬ p <+: c :: (w ++ rest) := fun hprefix =>
      hfree (prefix_of_prefix_append hp (List.cons_ne_nil c w) hrest hprefix).isInfix
    have hsuffix : w <:+: c :: w := (List.suffix_cons c w).isInfix
    exact reads_char (hnot (by decide) hclose) (hnot (by decide) hopen)
      (ih (fun h => hopen (h.trans hsuffix)) (fun h => hclose (h.trans hsuffix)))

/-! ### How much is left of content -/

theorem length_reading (color : Option UInt32) (cs : List Char) :
    (reading color cs).length = (kept cs).length := by
  rw [reading, List.length_filterMap_eq_countP, List.countP_eq_length]
  intro i hi
  have hlt : i < cs.length := List.mem_range.1 (List.mem_filter.1 hi).1
  simp [List.getElem?_eq_getElem hlt]

theorem IsTag.length_kept (h : IsTag p set) (rest : List Char) :
    (kept (p ++ rest)).length = (kept rest).length := by
  rw [← length_reading set, h.reading_append, length_reading]

theorem badAt_append (front : List Char) {i : Nat} (h : BadAt cs i) :
    BadAt (front ++ cs) (front.length + i) := by
  rw [Front.badAt_add, List.drop_left]
  exact h

theorem length_kept_char {c : Char} (h : tag? (c :: cs) = none) :
    (kept (c :: cs)).length = (kept cs).length + 1 := by
  rw [← length_reading none, reading_char h, List.length_cons, length_reading]

theorem length_kept_append (h : '<' ∉ w) :
    (kept (w ++ rest)).length = w.length + (kept rest).length := by
  induction w with
  | nil => simp
  | cons c w ih =>
    rw [List.mem_cons, not_or] at h
    have htag : tag? (c :: (w ++ rest)) = none :=
      tag?_drop (j := 0) (by simpa using Ne.symm h.1)
    rw [List.cons_append, length_kept_char htag, ih h.2, List.length_cons]
    omega

/-- A character adds at most itself to what is left, and nothing if it begins a tag. -/
theorem length_kept_cons {c : Char} (h : tag? (c :: cs) = some set) :
    (kept (c :: cs)).length ≤ (kept cs).length := by
  obtain ⟨p, rest, heq, htag⟩ := exists_isTag h
  obtain ⟨-, tail, rfl, htail⟩ := htag.chars
  obtain ⟨rfl, rfl⟩ : c = '<' ∧ cs = tail ++ rest := by simpa using heq
  have hkept := htag.length_kept rest
  rw [List.cons_append] at hkept
  rw [hkept, length_kept_append htail]
  exact Nat.le_add_left _ _

theorem length_kept_append_le (w rest : List Char) :
    (kept (w ++ rest)).length ≤ w.length + (kept rest).length := by
  induction w with
  | nil => simp
  | cons c w ih =>
    rw [List.cons_append, List.length_cons]
    cases h : tag? (c :: (w ++ rest)) with
    | none =>
      rw [length_kept_char h]
      omega
    | some set =>
      have := length_kept_cons h
      omega

/-- Where all content is left, no tag begins in it. -/
theorem tag?_of_le_length_kept {a b : List Char} (hb : b ≠ [])
    (h : (a ++ b).length + (kept rest).length ≤ (kept (a ++ b ++ rest)).length) :
    tag? (b ++ rest) = none := by
  cases htag : tag? (b ++ rest) with
  | none => rfl
  | some set =>
    obtain ⟨c, b, rfl⟩ := List.exists_cons_of_ne_nil hb
    have hfront := length_kept_append_le a (c :: b ++ rest)
    have htag : (kept (c :: (b ++ rest))).length ≤ (kept (b ++ rest)).length :=
      length_kept_cons htag
    have hback := length_kept_append_le b rest
    rw [List.append_assoc, List.length_append, List.length_cons] at h
    rw [List.cons_append] at h hfront
    omega

end Markup

namespace Segment

open Markup

variable {s : Segment} {rest : List Char}

theorem tagFree_of_le_length_kept (hsound : ∀ i, ¬ BadAt (s.content.toList ++ rest) i)
    (h : s.content.toList.length + (kept rest).length ≤ (kept (s.content.toList ++ rest)).length) :
    s.TagFree := by
  have hnone {p a b : List Char} (hp : p ≠ []) (heq : a ++ p ++ b = s.content.toList) :
      tag? (p ++ b ++ rest) = none := by
    rw [← heq, List.append_assoc] at h
    exact tag?_of_le_length_kept (by simp [hp]) h
  constructor
  · rintro ⟨a, b, heq⟩
    have htag := hnone (by simp) heq
    refine hsound a.length ⟨?_, ?_⟩
    · rw [← heq, List.append_assoc, List.append_assoc, List.drop_left]
      exact List.prefix_append _ _
    · rw [← heq, List.append_assoc, List.append_assoc, List.drop_left, ← List.append_assoc]
      cases hcolor : colorTag? (['<', '#'] ++ b ++ rest) with
      | none => rfl
      | some rgb =>
        rw [tag?_of_colorTag? hcolor] at htag
        cases htag
  · rintro ⟨a, b, heq⟩
    have htag := hnone (by simp) heq
    cases htag

end Segment

namespace RichText

open Markup

variable {t : RichText} {ss : List Segment}

theorem isTag_fixed {color : UInt32} (h : color ≤ maxColor) :
    IsTag ('<' :: '#' :: (Hex.fixed 6 color.toNat ++ ['>'])) (some color) := by
  have hlt : color.toNat < 16 ^ 6 := Nat.lt_succ_of_le (UInt32.le_iff_toNat_le.1 h)
  have hdenoted : Hex.denoted? (Hex.fixed 6 color.toNat) = some color.toNat := by
    rw [← Hex.read?_eq_denoted?, Hex.read?_fixed hlt]
  simpa using IsTag.opening (Hex.length_fixed 6 color.toNat) hdenoted

theorem toList_toMarkup (h : t.InGamut) :
    t.toMarkup.toList = t.segments.flatMap Segment.markup := by
  rw [toMarkup, toList_foldl_append, String.toList_empty, List.nil_append]
  refine List.flatMap_congr fun s hs => ?_
  rw [Segment.markup]
  cases hcolor : s.color with
  | none => rfl
  | some color =>
    have hlt : color.toNat < 16 ^ 6 :=
      Nat.lt_succ_of_le (UInt32.le_iff_toNat_le.1 (h s hs color hcolor))
    simp [Hex.padded_of_lt (by decide) hlt]

/-- Written segments without anything that looks like a tag are read as they are. -/
theorem reads_flatMap_markup (hgamut : ∀ s ∈ ss, ∀ color ∈ s.color, color ≤ maxColor)
    (hfree : ∀ s ∈ ss, s.TagFree) (hapart : ss.IsChain fun s next => s.color ≠ next.color) :
    Reads none (ss.flatMap Segment.markup) (ss.flatMap Segment.colored) := by
  induction ss with
  | nil => exact reads_nil none
  | cons s ss ih =>
    have hgamut := List.forall_mem_cons.1 hgamut
    have hfree := List.forall_mem_cons.1 hfree
    have ih := ih hgamut.2 hfree.2 hapart.tail
    rw [List.flatMap_cons, List.flatMap_cons, Segment.markup, Segment.colored]
    cases hcolor : s.color with
    | some color =>
      simp only [List.append_assoc]
      refine (isTag_fixed (hgamut.1 color hcolor)).reads ?_
      exact reads_append hfree.1.1 hfree.1.2 (by simp) (IsTag.closing.reads ih)
    | none =>
      -- The next segment has a color, so that a tag comes first.
      refine reads_append hfree.1.1 hfree.1.2 ?_ ih
      cases ss with
      | nil => simp
      | cons next ss =>
        have hnext := (List.isChain_cons_cons.1 hapart).1
        rw [hcolor] at hnext
        obtain ⟨color, hnext⟩ := Option.ne_none_iff_exists'.1 hnext.symm
        simp [Segment.markup, hnext]

/-- The tags of the markup do not count in what is left. -/
theorem exists_length_kept_markup {s : Segment} (hs : ∀ color ∈ s.color, color ≤ maxColor)
    (rest : List Char) : ∃ front back, s.markup ++ rest = front ++ (s.content.toList ++ back) ∧
      (kept (s.markup ++ rest)).length = (kept (s.content.toList ++ back)).length ∧
      (kept back).length = (kept rest).length := by
  cases hcolor : s.color with
  | none => exact ⟨[], rest, by simp [Segment.markup, hcolor]⟩
  | some color =>
    have htag := isTag_fixed (hs color hcolor)
    have heq : s.markup ++ rest = ('<' :: '#' :: (Hex.fixed 6 color.toNat ++ ['>'])) ++
        (s.content.toList ++ (['<', '/', '>'] ++ rest)) := by
      rw [Segment.markup, hcolor]
      simp only [List.append_assoc]
    exact ⟨_, _, heq, by rw [heq, htag.length_kept], IsTag.closing.length_kept rest⟩

theorem length_kept_markup_le (hgamut : ∀ s ∈ ss, ∀ color ∈ s.color, color ≤ maxColor) :
    (kept (ss.flatMap Segment.markup)).length ≤ (ss.flatMap Segment.colored).length := by
  induction ss with
  | nil => simp [kept]
  | cons s ss ih =>
    have hgamut := List.forall_mem_cons.1 hgamut
    rw [List.flatMap_cons, List.flatMap_cons, List.length_append, Segment.colored, List.length_map]
    obtain ⟨front, back, -, hkept, hback⟩ :=
      exists_length_kept_markup hgamut.1 (ss.flatMap Segment.markup)
    have hle := length_kept_append_le s.content.toList back
    have ih := ih hgamut.2
    omega

/-- If all content is left of written segments, nothing in it looks like a tag. -/
theorem tagFree_of_le_length_kept (hgamut : ∀ s ∈ ss, ∀ color ∈ s.color, color ≤ maxColor)
    (hsound : ∀ i, ¬ BadAt (ss.flatMap Segment.markup) i)
    (h : (ss.flatMap Segment.colored).length ≤ (kept (ss.flatMap Segment.markup)).length) :
    ∀ s ∈ ss, s.TagFree := by
  induction ss with
  | nil => simp
  | cons s ss ih =>
    have hgamut := List.forall_mem_cons.1 hgamut
    have hrest := length_kept_markup_le hgamut.2
    rw [List.flatMap_cons] at hsound h
    rw [List.flatMap_cons, List.length_append, Segment.colored, List.length_map] at h
    obtain ⟨front, back, heq, hkept, hback⟩ :=
      exists_length_kept_markup hgamut.1 (ss.flatMap Segment.markup)
    have hle := length_kept_append_le s.content.toList back
    refine List.forall_mem_cons.2 ⟨?_, ih hgamut.2 (fun i hi => ?_) (by omega)⟩
    · have hsound (i : Nat) : ¬ BadAt (s.content.toList ++ back) i := fun hi =>
        hsound _ (heq ▸ badAt_append front hi)
      exact Segment.tagFree_of_le_length_kept hsound (by omega)
    · exact hsound _ (badAt_append s.markup hi)

/-- Which texts are read back. -/
theorem Canonical.reads_toMarkup_iff (ht : t.Canonical) (hgamut : t.InGamut) :
    parseMarkup t.toMarkup = .ok t ↔ ∀ s ∈ t.segments, s.TagFree := by
  rw [parseMarkup_eq_ok_iff ht, toList_toMarkup hgamut]
  constructor
  · intro h
    refine tagFree_of_le_length_kept hgamut h.sound (Nat.le_of_eq ?_)
    rw [← length_reading none, h.left]
    rfl
  · exact fun hfree => reads_flatMap_markup hgamut hfree ht.isChain_segments

/-- Writing what was read inverts reading if and only if nothing looks like a tag in a segment. -/
theorem parseMarkup_toMarkup_iff {m : String} (h : parseMarkup m = .ok t) :
    parseMarkup t.toMarkup = .ok t ↔ ∀ s ∈ t.segments, s.TagFree :=
  (canonical_empty.parseMarkupFrom h).reads_toMarkup_iff (inGamut_of_parseMarkup h)

/-- Lone brackets are harmless. A bracket that a tag kept from a number sign is not. -/
theorem parseMarkup_toMarkup_iff_brackets :
    (parseMarkup "<<#00ff00>a<b</> c" =
      .ok (.ofSegments [⟨"<", none⟩, ⟨"a<b", some 0x00ff00⟩, ⟨" c", none⟩]) ∧
    parseMarkup (ofSegments [⟨"<", none⟩, ⟨"a<b", some 0x00ff00⟩, ⟨" c", none⟩]).toMarkup =
      .ok (.ofSegments [⟨"<", none⟩, ⟨"a<b", some 0x00ff00⟩, ⟨" c", none⟩])) ∧
    parseMarkup "<</>#" = .ok (.plain "<#") ∧
    parseMarkup (plain "<#").toMarkup ≠ .ok (.plain "<#") := by
  have hharmless : parseMarkup "<<#00ff00>a<b</> c" =
      .ok (.ofSegments [⟨"<", none⟩, ⟨"a<b", some 0x00ff00⟩, ⟨" c", none⟩]) := by cbv
  have hjoined : parseMarkup "<</>#" = .ok (.plain "<#") := by cbv
  refine ⟨⟨hharmless, (parseMarkup_toMarkup_iff hharmless).2 ?_⟩, hjoined, fun h => ?_⟩
  · decide
  · exact absurd ((parseMarkup_toMarkup_iff hjoined).1 h) (by decide)

end RichText

end EventScript
