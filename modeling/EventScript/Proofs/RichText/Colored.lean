import EventScript.Proofs.RichText.Canonical

/-!
Texts as colored characters. Putting segments together keeps the characters with their colors, and a
text in canonical form is determined by them: it is what they build one after the other.
-/
namespace EventScript

/-- A character and its color. -/
abbrev ColoredChar := Char × Option UInt32

def Segment.colored (s : Segment) : List ColoredChar := s.content.toList.map (·, s.color)

namespace RichText

variable {t u : RichText} {s : Segment} {ss : List Segment} {color : Option UInt32}

/-- The characters in reading order. -/
def colored (t : RichText) : List ColoredChar := t.segments.flatMap Segment.colored

/-- One more character. -/
def pushChar (t : RichText) (c : ColoredChar) : RichText := t.push ⟨String.singleton c.1, c.2⟩

/-- The text with these characters. -/
def ofColored (cs : List ColoredChar) : RichText := cs.foldl pushChar empty

@[simp] theorem segments_empty : empty.segments = [] := rfl

@[simp] theorem colored_empty : empty.colored = [] := rfl

@[simp] theorem colored_push : (t.push s).colored = t.colored ++ s.colored := by
  unfold push
  split
  · rename_i h
    simp [Segment.colored, h]
  · obtain ⟨_ | ⟨l, ls⟩⟩ := t
    · simp [colored, segments, joinLast]
    · rw [joinLast]
      split
      · rename_i hcolor
        simp [colored, segments, Segment.colored, hcolor]
      · simp [colored, segments]

theorem colored_foldl : (ss.foldl push t).colored = t.colored ++ ss.flatMap Segment.colored := by
  induction ss generalizing t with
  | nil => simp
  | cons s ss ih => rw [List.foldl_cons, ih, colored_push, List.flatMap_cons, List.append_assoc]

@[simp] theorem colored_append : (t.append u).colored = t.colored ++ u.colored := colored_foldl

@[simp] theorem colored_ofSegments : (ofSegments ss).colored = ss.flatMap Segment.colored :=
  colored_foldl

theorem map_fst_colored (s : Segment) : s.colored.map (·.1) = s.content.toList := by
  simp [Segment.colored, Function.comp_def]

theorem toList_foldl_append (f : Segment → String) (ss : List Segment) (text : String) :
    (ss.foldl (fun text s => text ++ f s) text).toList =
      text.toList ++ ss.flatMap fun s => (f s).toList := by
  induction ss generalizing text with
  | nil => simp
  | cons s ss ih => rw [List.foldl_cons, ih, String.toList_append, List.append_assoc,
      List.flatMap_cons]

/-- The content is that of the characters, whatever their colors. -/
theorem contents_eq (t : RichText) : t.contents = String.ofList (t.colored.map (·.1)) := by
  rw [← String.toList_inj, String.toList_ofList, contents, toList_foldl_append, colored,
    List.map_flatMap]
  simp only [map_fst_colored]
  rfl

theorem contents_append : (t.append u).contents = t.contents ++ u.contents := by
  rw [contents_eq, contents_eq, contents_eq, colored_append, List.map_append, String.ofList_append]

theorem contents_recolor (color : UInt32) : (t.recolor color).contents = t.contents := by
  rw [contents_eq, contents_eq, recolor, colored_ofSegments, colored]
  simp only [List.flatMap_map, List.map_flatMap, map_fst_colored]

/-! ### Texts from their characters -/

/-- A segment is pushed in pieces as it is at once. -/
theorem push_push (a b : String) :
    (t.push ⟨a, color⟩).push ⟨b, color⟩ = t.push ⟨a ++ b, color⟩ := by
  by_cases ha : a = ""
  · simp [push, ha]
  by_cases hb : b = ""
  · simp [push, hb]
  have hab : a ++ b ≠ "" := by simp [ha]
  simp only [push, ha, hb, hab, if_false]
  obtain ⟨_ | ⟨l, ls⟩⟩ := t
  · simp [joinLast]
  · by_cases hl : l.color = color
    · simp [joinLast, hl, String.append_assoc]
    · simp [joinLast, hl]

/-- A segment is pushed character by character as it is at once. -/
theorem foldl_pushChar_colored : s.colored.foldl pushChar t = t.push s := by
  obtain ⟨content, color⟩ := s
  obtain ⟨cs, rfl⟩ : ∃ cs, content = String.ofList cs := ⟨_, (String.ofList_toList).symm⟩
  simp only [Segment.colored, String.toList_ofList, List.foldl_map]
  induction cs generalizing t with
  | nil => simp [push]
  | cons c cs ih =>
    rw [List.foldl_cons, ih, pushChar, push_push, String.singleton_eq_ofList,
      ← String.ofList_append, List.singleton_append]

theorem ofColored_colored_ofSegments : ofColored (ofSegments ss).colored = ofSegments ss := by
  rw [colored_ofSegments, ofColored, ofSegments, List.foldl_flatMap]
  simp only [foldl_pushChar_colored]

@[simp] theorem colored_ofColored (cs : List ColoredChar) : (ofColored cs).colored = cs := by
  have hfold (t : RichText) : (cs.foldl pushChar t).colored = t.colored ++ cs := by
    induction cs generalizing t with
    | nil => simp
    | cons c cs ih => simp [ih, pushChar, Segment.colored]
  exact hfold empty

/-- A text in canonical form is built by its characters. -/
theorem Canonical.ofColored_colored (h : t.Canonical) : ofColored t.colored = t := by
  rw [← h.ofSegments_segments, ofColored_colored_ofSegments]

theorem Canonical.eq_iff (ht : t.Canonical) (hu : u.Canonical) : t = u ↔ t.colored = u.colored := by
  constructor
  · exact congrArg colored
  · intro h
    rw [← ht.ofColored_colored, h, hu.ofColored_colored]

theorem canonical_ofColored (cs : List ColoredChar) : (ofColored cs).Canonical := by
  have hfold : ∀ t : RichText, t.Canonical → (cs.foldl pushChar t).Canonical := by
    induction cs with
    | nil => exact fun _ h => h
    | cons c cs ih => exact fun t h => ih _ (h.push _)
  exact hfold empty canonical_empty

/-- Neighbours differ in color also in reading order. -/
theorem Canonical.isChain_segments (h : t.Canonical) :
    t.segments.IsChain fun s next => s.color ≠ next.color := by
  rw [segments, List.isChain_reverse]
  exact h.apart.imp fun _ _ => Ne.symm

end RichText

end EventScript
