import EventScript.Proofs.RichText.Tags
import EventScript.Proofs.Token.Scanning

/-!
Markup is read exactly. It is refused if and only if a color tag is begun that is none, and then
with the byte at which the first such stands; otherwise the characters of the text are those outside
of tags, each in the color that the last tag before it sets.
-/
namespace EventScript

open Text

namespace Markup

variable {p cs rest : List Char} {color set : Option UInt32} {i k : Nat}

/-- The first place at which a color tag is begun that is none. -/
def FirstBadAt (cs : List Char) (i : Nat) : Prop := BadAt cs i ∧ ∀ j < i, ¬ BadAt cs j

theorem FirstBadAt.unique {i j : Nat} (hi : FirstBadAt cs i) (hj : FirstBadAt cs j) : i = j := by
  rcases Nat.lt_trichotomy i j with h | h | h
  · exact absurd hi.1 (hj.2 i h)
  · exact h
  · exact absurd hj.1 (hi.2 j h)

theorem badAt_zero : BadAt cs 0 ↔ ['<', '#'] <+: cs ∧ colorTag? cs = none := by
  rw [BadAt, List.drop_zero]

theorem not_badAt_zero (h : ¬ ['<', '#'] <+: cs) : ¬ BadAt cs 0 := fun hbad =>
  h (badAt_zero.1 hbad).1

theorem IsTag.not_badAt (h : IsTag p set) (rest : List Char) : ¬ BadAt (p ++ rest) 0 := by
  rw [badAt_zero]
  rintro ⟨hopen, hnone⟩
  cases h with
  | closing => simp at hopen
  | opening hlength hn =>
    rw [colorTag?_eq_some_iff.2 ⟨_, rest, rfl, .opening hlength hn⟩] at hnone
    cases hnone

/-- Behind characters that begin no bad tag, bad tags are those of what follows. -/
theorem Front.eq_add_of_badAt (h : Front cs k) (h0 : ¬ BadAt cs 0) (hi : BadAt cs i) :
    ∃ j, i = k + j ∧ BadAt (cs.drop k) j := by
  by_cases hk : i < k
  · rcases Nat.eq_zero_or_pos i with rfl | hpos
    · exact absurd hi h0
    · exact absurd hi (not_badAt (h.apart i hpos hk))
  · obtain ⟨j, rfl⟩ := Nat.exists_eq_add_of_le (Nat.le_of_not_lt hk)
    exact ⟨j, rfl, Front.badAt_add.1 hi⟩

/-! ### Markup that is accepted -/

/-- No tag is bad, and without the tags these characters are left. -/
structure Reads (color : Option UInt32) (cs : List Char) (out : List ColoredChar) : Prop where
  sound : ∀ i, ¬ BadAt cs i
  left : reading color cs = out

section

variable {out : List ColoredChar}

theorem reads_nil (color : Option UInt32) : Reads color [] [] :=
  ⟨fun _ => not_badAt (by simp), rfl⟩

theorem IsTag.reads (htag : IsTag p set) (h : Reads set rest out) :
    Reads color (p ++ rest) out := by
  refine ⟨fun i hi => ?_, (htag.reading_append color rest).trans h.left⟩
  obtain ⟨j, -, hj⟩ := (htag.front rest).eq_add_of_badAt (htag.not_badAt rest) hi
  rw [List.drop_left] at hj
  exact h.sound j hj

theorem reads_char {c : Char} (hclose : ¬ ['<', '/', '>'] <+: c :: rest)
    (hopen : ¬ ['<', '#'] <+: c :: rest) (h : Reads color rest out) :
    Reads color (c :: rest) ((c, color) :: out) := by
  have htag := tag?_eq_none hclose hopen
  refine ⟨fun i hi => ?_, by rw [reading_char htag, h.left]⟩
  obtain ⟨j, -, hj⟩ := (front_char htag).eq_add_of_badAt (not_badAt_zero hopen) hi
  exact h.sound j hj

end

/-! ### Markup that is refused -/

/-- The complaint about the first bad tag, the characters beginning at byte `offset`. -/
def Refused (offset : Nat) (cs : List Char) (e : MarkupError) : Prop :=
  ∃ i, FirstBadAt cs i ∧ e = .invalidColor (offset + Lexer.width (cs.take i))

section

variable {offset : Nat} {e : MarkupError}

theorem Front.refused (h : Front cs k) (h0 : ¬ BadAt cs 0)
    (he : Refused (offset + Lexer.width (cs.take k)) (cs.drop k) e) : Refused offset cs e := by
  obtain ⟨i, ⟨hbad, hfirst⟩, rfl⟩ := he
  refine ⟨k + i, ⟨Front.badAt_add.2 hbad, fun j hj hbadj => ?_⟩, ?_⟩
  · obtain ⟨l, rfl, hl⟩ := h.eq_add_of_badAt h0 hbadj
    exact hfirst l (by omega) hl
  · rw [List.take_add, Lexer.width_append, Nat.add_assoc]

theorem IsTag.width (h : IsTag p set) : Lexer.width p = p.length :=
  Lexer.width_eq_length fun c hc => if_pos (Nat.le_of_lt_succ (h.chars.1 c hc))

theorem IsTag.refused (htag : IsTag p set) (he : Refused (offset + p.length) rest e) :
    Refused offset (p ++ rest) e := by
  refine (htag.front rest).refused (htag.not_badAt rest) ?_
  rwa [List.take_left, List.drop_left, htag.width]

theorem refused_char {c : Char} (hclose : ¬ ['<', '/', '>'] <+: c :: rest)
    (hopen : ¬ ['<', '#'] <+: c :: rest) (he : Refused (offset + c.utf8Size) rest e) :
    Refused offset (c :: rest) e := by
  refine (front_char (tag?_eq_none hclose hopen)).refused (not_badAt_zero hopen) ?_
  simpa using he

end

end Markup

namespace RichText

open Markup

theorem colorOfDigits?_eq {digits : List Char} (h : digits.length = 6) :
    colorOfDigits? digits = (Hex.denoted? digits).map .ofNat := by
  rw [colorOfDigits?, if_pos h, Hex.read?_eq_denoted?]

theorem readTag?_eq (tag : List Char) :
    readTag? tag = (colorTag? ('<' :: '#' :: tag)).map (·, tag.drop 7) := by
  unfold readTag?
  split
  · rename_i rest hdrop
    obtain ⟨digits, hlength, rfl⟩ : ∃ digits, digits.length = 6 ∧ tag = digits ++ '>' :: rest := by
      refine ⟨tag.take 6, ?_, by rw [← hdrop, List.take_append_drop]⟩
      have := congrArg List.length hdrop
      simp only [List.length_drop, List.length_cons] at this
      rw [List.length_take]
      omega
    have htake : (digits ++ '>' :: rest).take 6 = digits := by rw [← hlength, List.take_left]
    have hseven : (digits ++ '>' :: rest).drop 7 = rest := by
      rw [List.drop_append, hlength, List.drop_eq_nil_of_le (by omega)]
      rfl
    rw [htake, hseven, colorOfDigits?_eq hlength, colorTag?_digits hlength]
  · rename_i hdrop
    cases h : colorTag? ('<' :: '#' :: tag) with
    | none => rfl
    | some rgb =>
      obtain ⟨p, rest, heq, htag⟩ := colorTag?_eq_some_iff.1 h
      cases htag with
      | @opening digits n hlength hn =>
        simp only [List.cons_append, List.append_assoc, List.cons.injEq, true_and,
          List.nil_append] at heq
        subst heq
        exact absurd (by rw [← hlength, List.drop_left]) (hdrop rest)

theorem isTag_of_readTag? {tag rest : List Char} {rgb : UInt32}
    (h : readTag? tag = some (rgb, rest)) :
    ∃ p, IsTag p (some rgb) ∧ p.length = 9 ∧ '<' :: '#' :: tag = p ++ rest := by
  rw [readTag?_eq, Option.map_eq_some_iff] at h
  obtain ⟨_, hrgb, heq⟩ := h
  cases heq
  obtain ⟨p, rest, heq, htag⟩ := colorTag?_eq_some_iff.1 hrgb
  have hlength : p.length = 9 := by
    cases htag with
    | opening hlength => simp [hlength]
  refine ⟨p, htag, hlength, ?_⟩
  have hdrop : ('<' :: '#' :: tag).drop 9 = rest := by rw [heq, ← hlength, List.drop_left]
  rw [heq, ← hdrop]
  rfl

variable {t : RichText} {offset : Nat} {color set : Option UInt32} {p run cs rest : List Char}
  {answer : Except MarkupError RichText}

@[simp] theorem colored_pushRun : (t.pushRun run color).colored =
    t.colored ++ run.reverse.map (·, color) := by
  simp [pushRun, Segment.colored]

/-- What must be answered from byte `offset` on: a rest that is accepted is added to the text and
the run so far. -/
def Answers (offset : Nat) (t : RichText) (color : Option UInt32) (run cs : List Char) :
    Except MarkupError RichText → Prop
  | .ok u => ∃ out, Reads color cs out ∧
      u.colored = t.colored ++ run.reverse.map (·, color) ++ out
  | .error e => Refused offset cs e

theorem answers_tag (htag : IsTag p set)
    (h : Answers (offset + p.length) (t.pushRun run color) set [] rest answer) :
    Answers offset t color run (p ++ rest) answer := by
  cases answer with
  | error e => exact htag.refused h
  | ok u =>
    obtain ⟨out, hout, hu⟩ := h
    exact ⟨out, htag.reads hout, by simpa using hu⟩

theorem answers_char {c : Char} (hclose : ¬ ['<', '/', '>'] <+: c :: rest)
    (hopen : ¬ ['<', '#'] <+: c :: rest)
    (h : Answers (offset + c.utf8Size) t color (c :: run) rest answer) :
    Answers offset t color run (c :: rest) answer := by
  cases answer with
  | error e => exact refused_char hclose hopen h
  | ok u =>
    obtain ⟨out, hout, hu⟩ := h
    exact ⟨_, reads_char hclose hopen hout, by simpa using hu⟩

theorem answers_parseMarkupFrom (offset : Nat) (t : RichText) (color : Option UInt32)
    (run cs : List Char) :
    Answers offset t color run cs (parseMarkupFrom offset t color run cs) := by
  fun_induction parseMarkupFrom offset t color run cs with
  | case1 offset t color run => exact ⟨[], reads_nil color, by simp⟩
  | case2 offset t color run rest ih => exact answers_tag .closing ih
  | case3 offset t color run tag rgb rest read ih =>
    obtain ⟨p, htag, hlength, heq⟩ := isTag_of_readTag? read
    rw [heq]
    exact answers_tag htag (hlength ▸ ih)
  | case4 offset t color run tag read =>
    rw [readTag?_eq, Option.map_eq_none_iff] at read
    exact ⟨0, ⟨badAt_zero.2 ⟨⟨tag, rfl⟩, read⟩, by simp⟩, by simp⟩
  | case5 offset t color run c rest hclose hopen ih =>
    refine answers_char ?_ ?_ ih
    · rintro ⟨_, heq⟩
      cases heq
      exact hclose _ rfl rfl
    · rintro ⟨_, heq⟩
      cases heq
      exact hopen _ rfl rfl

section

variable {m : String} {t : RichText}

theorem reads_of_parseMarkup (h : parseMarkup m = .ok t) : Reads none m.toList t.colored := by
  have hanswers := answers_parseMarkupFrom 0 empty none [] m.toList
  rw [← parseMarkup, h] at hanswers
  obtain ⟨out, hout, ht⟩ := hanswers
  simpa [ht] using hout

theorem refused_of_parseMarkup {e : MarkupError} (h : parseMarkup m = .error e) :
    Refused 0 m.toList e := by
  have hanswers := answers_parseMarkupFrom 0 empty none [] m.toList
  rwa [← parseMarkup, h] at hanswers

/-- Which text is read, if any. -/
theorem parseMarkup_eq_ok_iff (ht : t.Canonical) :
    parseMarkup m = .ok t ↔ Reads none m.toList t.colored := by
  refine ⟨reads_of_parseMarkup, fun h => ?_⟩
  cases hu : parseMarkup m with
  | error e =>
    obtain ⟨i, hi, -⟩ := refused_of_parseMarkup hu
    exact absurd hi.1 (h.sound i)
  | ok u =>
    have hcolored := (reads_of_parseMarkup hu).left.symm.trans h.left
    have hcanonical : u.Canonical := canonical_empty.parseMarkupFrom hu
    rw [(hcanonical.eq_iff ht).2 hcolored]

end

/-- What is read of markup, whatever it is. -/
theorem parseMarkup_exact (m : String) :
    ((∃ t, parseMarkup m = .ok t) ↔
      ∀ i, ['<', '#'] <+: m.toList.drop i → ∃ rgb, colorTag? (m.toList.drop i) = some rgb) ∧
    (∀ e, parseMarkup m = .error e ↔ ∃ i, FirstBadAt m.toList i ∧
      e = .invalidColor (String.ofList (m.toList.take i)).utf8ByteSize) ∧
    ∀ t, parseMarkup m = .ok t →
      t.contents = String.ofList ((kept m.toList).filterMap (m.toList[·]?)) ∧
      t.colored = (kept m.toList).filterMap fun i =>
        m.toList[i]?.map (·, colorAt none m.toList i) := by
  have hok {t} (h : parseMarkup m = .ok t) (i : Nat) : ¬ BadAt m.toList i :=
    (reads_of_parseMarkup h).sound i
  refine ⟨⟨?_, fun h => ?_⟩, fun e => ⟨fun h => ?_, ?_⟩, fun t h => ?_⟩
  · rintro ⟨t, ht⟩ i hopen
    exact Option.ne_none_iff_exists'.1 fun hnone => hok ht i ⟨hopen, hnone⟩
  · cases ht : parseMarkup m with
    | ok t => exact ⟨t, rfl⟩
    | error e =>
      obtain ⟨i, ⟨⟨hopen, hnone⟩, -⟩, -⟩ := refused_of_parseMarkup ht
      obtain ⟨rgb, hrgb⟩ := h i hopen
      rw [hnone] at hrgb
      cases hrgb
  · obtain ⟨i, hi, rfl⟩ := refused_of_parseMarkup h
    exact ⟨i, hi, by rw [Nat.zero_add]; rfl⟩
  · rintro ⟨i, hi, rfl⟩
    cases ht : parseMarkup m with
    | ok t => exact absurd hi.1 (hok ht i)
    | error e =>
      obtain ⟨j, hj, rfl⟩ := refused_of_parseMarkup ht
      rw [hi.unique hj, Nat.zero_add]
      rfl
  · have hcolored : reading none m.toList = t.colored := (reads_of_parseMarkup h).left
    refine ⟨?_, hcolored.symm⟩
    rw [contents_eq, ← hcolored, reading, List.map_filterMap]
    simp [Function.comp_def]

end RichText

end EventScript
