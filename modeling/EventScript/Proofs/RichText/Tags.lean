import EventScript.Proofs.RichText.Colored
import EventScript.Proofs.Text.Hex

/-!
Markup by place: which tags stand where, which characters belong to none of them, and which color
was set last before a place. A tag has no opening bracket but its first character, so that tags do
not overlap, and the characters behind one can be regarded on their own.
-/
namespace EventScript.Markup

open Text

/-- The color that the color tag at the front sets. -/
def colorTag? : List Char → Option UInt32
  | '<' :: '#' :: a :: b :: c :: d :: e :: f :: '>' :: _ =>
    (Hex.denoted? [a, b, c, d, e, f]).map .ofNat
  | _ => none

/-- What the tag at the front, of either kind, sets the color to. -/
def tag? : List Char → Option (Option UInt32)
  | '<' :: '/' :: '>' :: _ => some none
  | cs => (colorTag? cs).map some

/-- How many characters the tag at the front has. -/
def tagLength (cs : List Char) : Nat :=
  match tag? cs with
  | none => 0
  | some none => 3
  | some (some _) => 9

/-- A color tag is begun at this place, but it is none. -/
def BadAt (cs : List Char) (i : Nat) : Prop :=
  ['<', '#'] <+: cs.drop i ∧ colorTag? (cs.drop i) = none

/-- The character at this place belongs to a tag. -/
def Tagged (cs : List Char) (i : Nat) : Prop := ∃ j ≤ i, i < j + tagLength (cs.drop j)

instance (cs : List Char) : DecidablePred (Tagged cs) := fun i =>
  inferInstanceAs (Decidable (∃ j ≤ i, i < j + tagLength (cs.drop j)))

/-- The places of the characters that belong to no tag. -/
def kept (cs : List Char) : List Nat := (List.range cs.length).filter fun i => ¬ Tagged cs i

/-- What the last tag before a place sets the color to; without one it is `color`. -/
def colorAt (color : Option UInt32) (cs : List Char) (i : Nat) : Option UInt32 :=
  ((List.range i).filterMap fun j => tag? (cs.drop j)).getLast?.getD color

/-- The characters without the tags, each in its color. -/
def reading (color : Option UInt32) (cs : List Char) : List ColoredChar :=
  (kept cs).filterMap fun i => cs[i]?.map (·, colorAt color cs i)

variable {cs : List Char} {color set : Option UInt32} {i j k : Nat}

theorem tag?_drop (h : cs[j]? ≠ some '<') : tag? (cs.drop j) = none := by
  cases hdrop : cs.drop j with
  | nil => rfl
  | cons c rest =>
    have hc : c ≠ '<' := by
      rintro rfl
      exact h (by rw [← List.head?_drop, hdrop]; rfl)
    simp [tag?, colorTag?, hc]

theorem tagLength_drop (h : cs[j]? ≠ some '<') : tagLength (cs.drop j) = 0 := by
  rw [tagLength, tag?_drop h]

theorem not_badAt (h : cs[j]? ≠ some '<') : ¬ BadAt cs j := by
  rintro ⟨⟨rest, hrest⟩, -⟩
  exact h (by rw [← List.head?_drop, ← hrest]; rfl)

/-- Among the first `k` characters only the first can begin a tag, which then ends within them. -/
structure Front (cs : List Char) (k : Nat) : Prop where
  pos : 0 < k
  le : k ≤ cs.length
  tagLength_le : tagLength cs ≤ k
  apart : ∀ j, 0 < j → j < k → cs[j]? ≠ some '<'

namespace Front

theorem tagged_iff (h : Front cs k) (hi : i < k) : Tagged cs i ↔ i < tagLength cs := by
  constructor
  · rintro ⟨j, hj, hlt⟩
    rcases Nat.eq_zero_or_pos j with rfl | hpos
    · simpa using hlt
    · rw [tagLength_drop (h.apart j hpos (by omega))] at hlt
      omega
  · exact fun hlt => ⟨0, Nat.zero_le _, by simpa using hlt⟩

theorem tagged_add (h : Front cs k) : Tagged cs (k + i) ↔ Tagged (cs.drop k) i := by
  constructor
  · rintro ⟨j, hj, hlt⟩
    by_cases hk : j < k
    · rcases Nat.eq_zero_or_pos j with rfl | hpos
      · have := h.tagLength_le
        simp only [List.drop_zero] at hlt
        omega
      · rw [tagLength_drop (h.apart j hpos hk)] at hlt
        omega
    · obtain ⟨j, rfl⟩ := Nat.exists_eq_add_of_le (Nat.le_of_not_lt hk)
      exact ⟨j, by omega, by rw [List.drop_drop]; omega⟩
  · rintro ⟨j, hj, hlt⟩
    rw [List.drop_drop] at hlt
    exact ⟨k + j, by omega, by omega⟩

theorem kept_eq (h : Front cs k) : kept cs =
    (List.range k).filter (fun i => ¬ i < tagLength cs) ++ (kept (cs.drop k)).map (k + ·) := by
  have hlength : cs.length = k + (cs.drop k).length := by
    have := h.le
    rw [List.length_drop]
    omega
  rw [kept, hlength, List.range_add, List.filter_append, List.filter_map]
  congr 1
  · refine List.filter_congr fun i hi => ?_
    simp only [h.tagged_iff (List.mem_range.1 hi)]
  · simp only [kept, Function.comp_def, h.tagged_add]

theorem colorAt_add (h : Front cs k) (color : Option UInt32) :
    colorAt color cs (k + i) = colorAt ((tag? cs).getD color) (cs.drop k) i := by
  have hfront : (List.range k).filterMap (fun j => tag? (cs.drop j)) = (tag? cs).toList := by
    obtain ⟨k, rfl⟩ := Nat.exists_eq_add_of_lt h.pos
    have hinside : (List.range k).filterMap (fun j => tag? (cs.drop (j + 1))) = [] :=
      List.filterMap_eq_nil_iff.2 fun j hj =>
        tag?_drop (h.apart _ (by omega) (by simpa using hj))
    rw [Nat.zero_add, List.range_succ_eq_map, List.filterMap_cons, List.filterMap_map,
      List.drop_zero]
    simp only [Function.comp_def, hinside]
    cases tag? cs <;> rfl
  rw [colorAt, List.range_add, List.filterMap_append, List.filterMap_map, hfront]
  simp only [colorAt, Function.comp_def, List.drop_drop, List.getLast?_append]
  cases tag? cs <;> cases List.getLast? _ <;> rfl

/-- What is read is what is read of the first characters and, in the color they set, of the rest. -/
theorem reading_eq (h : Front cs k) (color : Option UInt32) : reading color cs =
    ((List.range k).filter fun i => ¬ i < tagLength cs).filterMap
      (fun i => cs[i]?.map (·, colorAt color cs i)) ++
    reading ((tag? cs).getD color) (cs.drop k) := by
  rw [reading, h.kept_eq, List.filterMap_append, List.filterMap_map]
  simp only [reading, Function.comp_def, h.colorAt_add, List.getElem?_drop]

theorem badAt_add : BadAt cs (k + i) ↔ BadAt (cs.drop k) i := by
  rw [BadAt, BadAt, List.drop_drop]

end Front

theorem front_cons {c : Char} {w rest : List Char} (hw : '<' ∉ w)
    (hle : tagLength (c :: (w ++ rest)) ≤ w.length + 1) :
    Front (c :: (w ++ rest)) (w.length + 1) := by
  refine ⟨Nat.succ_pos _, by simp, hle, fun j hj hlt h => hw ?_⟩
  obtain ⟨j, rfl⟩ := Nat.exists_eq_add_of_lt hj
  rw [Nat.zero_add, List.getElem?_cons_succ, List.getElem?_append_left (by omega)] at h
  exact List.mem_of_getElem? h

/-! ### The two kinds of tags -/

/-- The characters of a tag, and what it sets the color to. -/
inductive IsTag : List Char → Option UInt32 → Prop
  | closing : IsTag ['<', '/', '>'] none
  | opening {digits n} : digits.length = 6 → Hex.denoted? digits = some n →
      IsTag ('<' :: '#' :: (digits ++ ['>'])) (some (.ofNat n))

theorem notMem_of_denoted? {digits : List Char} {n : Nat} (h : Hex.denoted? digits = some n) :
    '<' ∉ digits := by
  intro hmem
  obtain ⟨d, hd⟩ := Hex.value?_of_denoted? h hmem
  have hnone : Hex.value? '<' = none := by decide
  rw [hnone] at hd
  cases hd

theorem colorTag?_digits {digits : List Char} (h : digits.length = 6) (rest : List Char) :
    colorTag? ('<' :: '#' :: (digits ++ '>' :: rest)) = (Hex.denoted? digits).map .ofNat := by
  match digits, h with
  | [_, _, _, _, _, _], _ => rfl

theorem colorTag?_eq_some_iff {rgb : UInt32} : colorTag? cs = some rgb ↔
    ∃ p rest, cs = p ++ rest ∧ IsTag p (some rgb) := by
  constructor
  · intro h
    unfold colorTag? at h
    split at h
    · rename_i a b c d e f rest
      obtain ⟨n, hn, rfl⟩ := Option.map_eq_some_iff.1 h
      have hsix : [a, b, c, d, e, f].length = 6 := rfl
      exact ⟨_, rest, rfl, .opening hsix hn⟩
    · cases h
  · rintro ⟨p, rest, rfl, h⟩
    cases h with
    | opening hlength hn =>
      rw [List.cons_append, List.cons_append, List.append_assoc]
      exact (colorTag?_digits hlength rest).trans (by rw [hn]; rfl)

namespace IsTag

variable {p rest : List Char}

theorem tag?_append (h : IsTag p set) (rest : List Char) : tag? (p ++ rest) = some set := by
  cases h with
  | closing => rfl
  | opening hlength hn =>
    have hcolor := colorTag?_eq_some_iff.2 ⟨_, rest, rfl, .opening hlength hn⟩
    exact congrArg (Option.map some) hcolor

theorem tagLength_append (h : IsTag p set) (rest : List Char) :
    tagLength (p ++ rest) = p.length := by
  rw [tagLength, h.tag?_append]
  cases h with
  | closing => rfl
  | opening hlength => simp [hlength]

/-- Every character of a tag is of one byte, and only the first one is an opening bracket. -/
theorem chars (h : IsTag p set) :
    (∀ c ∈ p, c.toNat < 128) ∧ ∃ tail, p = '<' :: tail ∧ '<' ∉ tail := by
  cases h with
  | closing => exact ⟨by simp, _, rfl, by decide⟩
  | opening hlength hn =>
    refine ⟨?_, _, rfl, by simpa using notMem_of_denoted? hn⟩
    simp only [List.mem_cons, List.mem_append, List.not_mem_nil, or_false]
    rintro c (rfl | rfl | hc | rfl)
    · decide
    · decide
    · obtain ⟨d, hd⟩ := Hex.value?_of_denoted? hn hc
      exact Hex.toNat_lt_of_value? hd
    · decide

theorem front (h : IsTag p set) (rest : List Char) : Front (p ++ rest) p.length := by
  have hle := Nat.le_of_eq (h.tagLength_append rest)
  obtain ⟨-, tail, rfl, htail⟩ := h.chars
  exact front_cons htail hle

theorem reading_append (h : IsTag p set) (color : Option UInt32) (rest : List Char) :
    reading color (p ++ rest) = reading set rest := by
  have hnone : (List.range p.length).filter (fun i => ¬ i < p.length) = [] :=
    List.filter_eq_nil_iff.2 fun i hi => by simpa using hi
  rw [(h.front rest).reading_eq, h.tagLength_append, h.tag?_append, hnone, List.drop_left]
  rfl

end IsTag

theorem tag?_of_colorTag? {rgb : UInt32} (h : colorTag? cs = some rgb) :
    tag? cs = some (some rgb) := by
  obtain ⟨p, rest, rfl, htag⟩ := colorTag?_eq_some_iff.1 h
  exact htag.tag?_append rest

theorem exists_isTag (h : tag? cs = some set) : ∃ p rest, cs = p ++ rest ∧ IsTag p set := by
  unfold tag? at h
  split at h
  · cases h
    exact ⟨_, _, rfl, .closing⟩
  · obtain ⟨rgb, hrgb, rfl⟩ := Option.map_eq_some_iff.1 h
    exact colorTag?_eq_some_iff.1 hrgb

theorem tag?_eq_none (hclose : ¬ ['<', '/', '>'] <+: cs) (hopen : ¬ ['<', '#'] <+: cs) :
    tag? cs = none := by
  cases h : tag? cs with
  | none => rfl
  | some set =>
    obtain ⟨p, rest, rfl, htag⟩ := exists_isTag h
    cases htag with
    | closing => exact absurd ⟨rest, rfl⟩ hclose
    | opening => exact absurd ⟨_, rfl⟩ hopen

/-! ### Other characters -/

theorem front_char {c : Char} (h : tag? (c :: cs) = none) : Front (c :: cs) 1 :=
  front_cons (w := []) (by simp) (by simp [tagLength, h])

theorem reading_char {c : Char} (h : tag? (c :: cs) = none) (color : Option UInt32) :
    reading color (c :: cs) = (c, color) :: reading color cs := by
  have hzero : tagLength (c :: cs) = 0 := by rw [tagLength, h]
  rw [(front_char h).reading_eq, hzero, h]
  simp [colorAt]

@[simp] theorem reading_nil (color : Option UInt32) : reading color [] = [] := rfl

end EventScript.Markup
