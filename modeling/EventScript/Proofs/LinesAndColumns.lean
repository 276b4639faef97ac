import EventScript.Proofs.Token.Places

/-!
Lines and columns of byte offsets. The characters before an offset determine its line and column,
and a character more moves both forward in the order of the text, so that offsets between characters
can be told apart by the places that are shown for them.
-/
namespace EventScript

open Lexer

namespace LineColumn

/-- The place behind these characters: a line begins behind each newline. -/
def behind (read : List Char) : LineColumn where
  line := 1 + read.count '\n'
  column := 1 + (read.reverse.takeWhile (· ≠ '\n')).length

/-- On an earlier line, or further left on the same line. -/
def Before (p q : LineColumn) : Prop := p.line < q.line ∨ p.line = q.line ∧ p.column < q.column

/-- How the place is written in messages. -/
def display (p : LineColumn) : String := s!"{p.line}:{p.column}"

variable {p q r : LineColumn} {text : String} {read more after : List Char} {c : Char}
  {offset pos : Nat}

theorem Before.trans (h : p.Before q) (h' : q.Before r) : p.Before r := by
  unfold Before at *
  omega

theorem not_before_self (p : LineColumn) : ¬p.Before p := by
  unfold Before
  omega

/-! ### Stepping over characters -/

theorem behind_concat : behind (read ++ [c]) =
    if c = '\n' then ⟨(behind read).line + 1, 1⟩
    else ⟨(behind read).line, (behind read).column + 1⟩ := by
  by_cases hc : c = '\n'
  · simp [behind, hc, Nat.add_assoc]
  · simp [behind, hc, Nat.add_assoc]

theorem before_concat (read : List Char) (c : Char) :
    (behind read).Before (behind (read ++ [c])) := by
  rw [behind_concat]
  split
  · exact .inl (Nat.lt_succ_self _)
  · exact .inr ⟨rfl, Nat.lt_succ_self _⟩

theorem before_append (read : List Char) (hmore : more ≠ []) :
    (behind read).Before (behind (read ++ more)) := by
  induction more using List.reverseRecOn with
  | nil => exact absurd rfl hmore
  | append_singleton more c ih =>
    rw [← List.append_assoc]
    rcases List.eq_nil_or_concat more with rfl | ⟨_, _, rfl⟩
    · rw [List.append_nil]
      exact before_concat read c
    · exact (ih (by simp)).trans (before_concat _ c)

/-- What has been stepped over is the place behind it, as long as the offset is not reached. -/
theorem advance_behind : advance (pos + width more) pos (behind read) (more ++ after) =
    behind (read ++ more) := by
  induction more generalizing pos read with
  | nil => cases after <;> simp [advance]
  | cons c more ih =>
    have hc := c.utf8Size_pos
    rw [List.cons_append, advance, if_neg (by rw [width_cons]; omega), ← behind_concat, width_cons,
      ← Nat.add_assoc, ih, List.append_assoc, List.singleton_append]

theorem ofOffset_width (h : text.toList = read ++ after) :
    ofOffset text (width read) = behind read := by
  have hadvance : advance (0 + width read) 0 (behind []) (read ++ after) = behind ([] ++ read) :=
    advance_behind
  rwa [Nat.zero_add, List.nil_append, ← h] at hadvance

/-! ### How places are written -/

theorem not_mem_repr (n : Nat) : ':' ∉ n.repr.toList := by
  intro h
  rw [Nat.repr, String.toList_ofList] at h
  exact absurd (Nat.isDigit_of_mem_toDigits (by decide) (by decide) h) (by decide)

theorem toList_display (p : LineColumn) :
    p.display.toList = p.line.repr.toList ++ ':' :: p.column.repr.toList := by
  simp [display, toString]

theorem display_injective (h : p.display = q.display) : p = q := by
  have hlist := congrArg String.toList h
  rw [toList_display, toList_display, List.append_cons_inj_of_notMem (not_mem_repr _)
    (not_mem_repr _), String.toList_inj, String.toList_inj] at hlist
  obtain ⟨hline, -, hcolumn⟩ := hlist
  cases p
  cases q
  exact congrArg₂ mk (Nat.repr_injective hline) (Nat.repr_injective hcolumn)

/-! ### Offsets in a text -/

theorem exists_ofOffset (h : String.Pos.Raw.IsValid text ⟨offset⟩) : ∃ before after,
    text = before ++ after ∧ before.utf8ByteSize = offset ∧
      ofOffset text offset = behind before.toList := by
  obtain ⟨before, after, rfl, hsize⟩ := String.Pos.Raw.isValid_iff_exists_append.1 h
  obtain rfl : offset = before.utf8ByteSize := congrArg String.Pos.Raw.byteIdx hsize
  refine ⟨before, after, rfl, rfl, ?_⟩
  rw [utf8ByteSize_eq_width]
  exact ofOffset_width String.toList_append

/-- The earlier of two offsets has the earlier place. -/
theorem before_of_lt {i j : Nat} (hi : String.Pos.Raw.IsValid text ⟨i⟩)
    (hj : String.Pos.Raw.IsValid text ⟨j⟩) (hij : i < j) :
    (ofOffset text i).Before (ofOffset text j) := by
  obtain ⟨after, before, htext, rfl⟩ := isValid_iff_passes.1 hi
  obtain ⟨after', before', htext', rfl⟩ := isValid_iff_passes.1 hj
  rw [Nat.zero_add, Nat.zero_add] at hij
  rw [Nat.zero_add, Nat.zero_add, ofOffset_width htext, ofOffset_width htext']
  rcases List.append_eq_append_iff.1 (htext.symm.trans htext') with ⟨more, rfl, -⟩ | ⟨more, rfl, -⟩
  · refine before_append before ?_
    rintro rfl
    simp at hij
  · rw [width_append] at hij
    omega

end LineColumn

namespace CompileError

/-- What stands before the place when an error is formatted. -/
def heading (e : CompileError) : String :=
  s!"[{e.kind.label}] " ++ e.source?.elim "line " (· ++ ":")

theorem format_eq (e : CompileError) (text : String) : e.format text =
    e.heading ++ (LineColumn.ofOffset text e.span.start).display ++ ": " ++ e.message := by
  obtain ⟨complaint, span, source?⟩ := e
  cases source? <;> simp [format, heading, LineColumn.display, toString, String.append_assoc]

/-- The line of an offset between characters is one more than the newlines before it, and its column
one more than the characters since the last of them. Of two such offsets the earlier one has the
earlier place, so that no two of them look the same in a message. -/
theorem format_identifies (text : String) :
    (∀ e : CompileError, String.Pos.Raw.IsValid text ⟨e.span.start⟩ → ∃ before after,
      text = before ++ after ∧ before.utf8ByteSize = e.span.start ∧
        e.format text = e.heading ++ LineColumn.display ⟨1 + before.toList.count '\n',
          1 + (before.toList.reverse.takeWhile (· ≠ '\n')).length⟩ ++ ": " ++ e.message) ∧
    (∀ i j, String.Pos.Raw.IsValid text ⟨i⟩ → String.Pos.Raw.IsValid text ⟨j⟩ → i < j →
      (LineColumn.ofOffset text i).Before (LineColumn.ofOffset text j) ∧
        (LineColumn.ofOffset text i).display ≠ (LineColumn.ofOffset text j).display) ∧
    ∀ (e : CompileError) (span : Span), String.Pos.Raw.IsValid text ⟨e.span.start⟩ →
      String.Pos.Raw.IsValid text ⟨span.start⟩ →
        e.format text = { e with span }.format text → e.span.start = span.start := by
  have hdiffer {i j : Nat} (hi : String.Pos.Raw.IsValid text ⟨i⟩)
      (hj : String.Pos.Raw.IsValid text ⟨j⟩) (hij : i < j) :
      (LineColumn.ofOffset text i).display ≠ (LineColumn.ofOffset text j).display := by
    intro heq
    have hbefore := LineColumn.before_of_lt hi hj hij
    rw [LineColumn.display_injective heq] at hbefore
    exact LineColumn.not_before_self _ hbefore
  refine ⟨fun e he => ?_,
    fun i j hi hj hij => ⟨LineColumn.before_of_lt hi hj hij, hdiffer hi hj hij⟩,
    fun e span he hspan heq => ?_⟩
  · obtain ⟨before, after, htext, hsize, hplace⟩ := LineColumn.exists_ofOffset he
    refine ⟨before, after, htext, hsize, ?_⟩
    rw [format_eq, hplace]
    rfl
  · rw [format_eq, format_eq] at heq
    have hplaces : (LineColumn.ofOffset text e.span.start).display =
        (LineColumn.ofOffset text span.start).display := by
      have hlists := congrArg String.toList heq
      simpa [heading, kind, message, String.toList_inj] using hlists
    rcases Nat.lt_trichotomy e.span.start span.start with hlt | h | hlt
    · exact absurd hplaces (hdiffer he hspan hlt)
    · exact h
    · exact absurd hplaces.symm (hdiffer hspan he hlt)

/-- Right behind a newline, with characters of several bytes on both sides. -/
theorem format_identifies_accented :
    let e : CompileError := ⟨.undefinedVariable "ü", ⟨3, 5⟩, none⟩
    String.Pos.Raw.IsValid "é\nü" ⟨2⟩ ∧ String.Pos.Raw.IsValid "é\nü" ⟨3⟩ ∧
      (LineColumn.ofOffset "é\nü" 2).Before (LineColumn.ofOffset "é\nü" 3) ∧
      e.format "é\nü" ≠ { e with span := ⟨2, 3⟩ }.format "é\nü" ∧
      ∃ before after, "é\nü" = before ++ after ∧ before.utf8ByteSize = 3 ∧
        e.format "é\nü" = e.heading ++ LineColumn.display ⟨1 + before.toList.count '\n',
          1 + (before.toList.reverse.takeWhile (· ≠ '\n')).length⟩ ++ ": " ++ e.message := by
  intro e
  have hnewline : String.Pos.Raw.IsValid "é\nü" ⟨2⟩ :=
    String.Pos.Raw.isValid_iff_exists_append.2 ⟨"é", "\nü", rfl, rfl⟩
  have hline : String.Pos.Raw.IsValid "é\nü" ⟨3⟩ :=
    String.Pos.Raw.isValid_iff_exists_append.2 ⟨"é\n", "ü", rfl, rfl⟩
  obtain ⟨hplace, hforward, hapart⟩ := format_identifies "é\nü"
  refine ⟨hnewline, hline, (hforward 2 3 hnewline hline (by decide)).1, fun heq => ?_,
    hplace e hline⟩
  exact absurd (hapart e ⟨2, 3⟩ hline hnewline heq) (by decide)

end CompileError

end EventScript
