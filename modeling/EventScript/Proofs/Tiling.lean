import EventScript.Proofs.Token.Places
import EventScript.Proofs.Token.Spelling

/-!
The tokens of a text tile it: one behind the other they take up all of it but the layout, and each
is what its own piece of the text reads as.
-/
namespace EventScript

open Lexer

/-- The piece is what lies in the span. -/
def Span.Covers (s : Span) (text piece : String) : Prop :=
  ∃ before after, text = before ++ piece ++ after ∧ before.utf8ByteSize = s.start ∧
    before.utf8ByteSize + piece.utf8ByteSize = s.stop

/-- What lies between `start` and the first token, and between each token and the next. -/
def gaps : (start : Nat) → List SpannedToken → List Span
  | _, [] => []
  | start, t :: ts => ⟨start, t.span.start⟩ :: gaps t.span.stop ts

namespace Lexer

/-- From `pos` on, the characters are the tokens as they are written, with layout before each of
them and at the end. -/
inductive Tiles : (pos : Nat) → List Char → List SpannedToken → Prop where
  | last {pos : Nat} {gap : List Char} (hgap : Layout true gap) :
    Tiles pos gap [⟨.endOfInput, ⟨pos + width gap, pos + width gap⟩⟩]
  | token {pos : Nat} {gap w cs : List Char} {t : Token} {tokens : List SpannedToken}
    (hgap : Layout false gap) (hw : Spells t w)
    (more : Tiles (pos + width gap + width w) cs tokens) :
    Tiles pos (gap ++ (w ++ cs)) (⟨t, ⟨pos + width gap, pos + width gap + width w⟩⟩ :: tokens)

section

variable {pos : Nat} {cs gap w : List Char} {t : Token} {tokens read : List SpannedToken}

theorem Layout.mono {last : Bool} (h : Layout false gap) : Layout last gap := by
  induction h with
  | done => exact .done
  | blank hc _ ih => exact .blank hc ih
  | comment hline _ ih => exact .comment hline ih
  | lastComment h => cases h

theorem Spells.ne_endOfInput (h : Spells t w) : t ≠ .endOfInput := by
  cases h <;> nofun

theorem Spells.width_pos (h : Spells t w) : 0 < width w := by
  obtain ⟨c, cs, rfl, -⟩ := h.first
  rw [width_cons]
  exact Nat.add_pos_left (Char.utf8Size_pos c) _

theorem width_skipLayout (h : cs = gap ++ (skipLayout false pos cs).2) :
    (skipLayout false pos cs).1 = pos + width gap := by
  obtain ⟨passed, hpassed, hwidth⟩ := passes_skipLayout false pos cs
  rw [hwidth, List.append_cancel_right (h.symm.trans hpassed)]

theorem exists_tiles (h : tokensFrom pos cs read = .ok tokens) :
    ∃ more, tokens = read.reverse ++ more ∧ Tiles pos cs more := by
  fun_induction tokensFrom pos cs read with
  | case1 pos cs read start hskip =>
    cases h
    obtain ⟨gap, hgap, hlayout⟩ := exists_layout_skipLayout false pos cs
    have hstart := width_skipLayout hgap
    rw [hskip] at hgap hlayout hstart
    rw [List.append_nil] at hgap
    obtain rfl : start = pos + width gap := hstart
    subst hgap
    exact ⟨_, List.reverse_cons, .last hlayout⟩
  | case2 => cases h
  | case3 pos cs read start c rest hskip token stop after hscan ih =>
    obtain ⟨gap, hgap, hlayout⟩ := exists_layout_skipLayout false pos cs
    have hstart := width_skipLayout hgap
    rw [hskip] at hgap hlayout hstart
    obtain rfl : start = pos + width gap := hstart
    obtain ⟨w, hw, hspells⟩ := exists_spells_of_scanToken hscan
    obtain ⟨passed, hpassed, rfl⟩ := passes_scanToken hscan
    obtain rfl : w = passed := List.append_cancel_right (hw.symm.trans hpassed)
    obtain ⟨more, rfl, htiles⟩ := ih h
    rw [hgap, hw]
    refine ⟨_, ?_, .token hlayout hspells htiles⟩
    rw [List.reverse_cons, List.append_assoc, List.singleton_append]

/-- All tokens begin where the last one ended or behind it. -/
theorem Tiles.le (h : Tiles pos cs tokens) :
    ∀ t ∈ tokens, pos ≤ t.span.start ∧ t.span.start ≤ t.span.stop := by
  induction h with
  | last => simp
  | token _ _ _ ih =>
    refine List.forall_mem_cons.2 ⟨⟨Nat.le_add_right _ _, Nat.le_add_right _ _⟩, fun t ht => ?_⟩
    obtain ⟨hpos, hle⟩ := ih t ht
    exact ⟨by omega, hle⟩

theorem Tiles.pairwise (h : Tiles pos cs tokens) :
    tokens.Pairwise fun a b => a.span.stop ≤ b.span.start := by
  induction h with
  | last => exact List.pairwise_singleton _ _
  | token _ _ more ih => exact List.pairwise_cons.2 ⟨fun t ht => (more.le t ht).1, ih⟩

/-- The end of input comes at the end, and all other tokens are written somewhere. -/
theorem Tiles.exists_written (h : Tiles pos cs tokens) : ∃ read,
    tokens = read ++ [⟨.endOfInput, ⟨pos + width cs, pos + width cs⟩⟩] ∧
      ∀ t ∈ read, ∃ before w after, cs = before ++ w ++ after ∧ Spells t.token w ∧
        t.span = ⟨pos + width before, pos + width before + width w⟩ := by
  induction h with
  | last => exact ⟨[], rfl, by simp⟩
  | @token pos gap w cs t tokens _ hw _ ih =>
    obtain ⟨read, rfl, hread⟩ := ih
    refine ⟨⟨t, ⟨pos + width gap, pos + width gap + width w⟩⟩ :: read, ?_, ?_⟩
    · simp only [width_append, List.cons_append, Nat.add_assoc]
    · refine List.forall_mem_cons.2 ⟨⟨gap, w, cs, by simp, hw, rfl⟩, fun u hu => ?_⟩
      obtain ⟨before, v, after, rfl, hv, hspan⟩ := hread u hu
      refine ⟨gap ++ w ++ before, v, after, by simp, hv, ?_⟩
      simp only [hspan, width_append, Nat.add_assoc]

theorem Tiles.gaps (h : Tiles pos cs tokens) : ∀ s ∈ gaps pos tokens, ∃ before gap after,
    cs = before ++ gap ++ after ∧ s = ⟨pos + width before, pos + width before + width gap⟩ ∧
      Layout after.isEmpty gap := by
  induction h with
  | @last pos gap hgap =>
    rintro _ (_ | ⟨_, ⟨⟩⟩)
    exact ⟨[], gap, [], by simp, rfl, hgap⟩
  | @token pos gap w cs t tokens hgap hw _ ih =>
    refine List.forall_mem_cons.2 ⟨⟨[], gap, w ++ cs, rfl, rfl, hgap.mono⟩, fun s hs => ?_⟩
    obtain ⟨before, more, after, rfl, hspan, hmore⟩ := ih s hs
    refine ⟨gap ++ w ++ before, more, after, by simp, ?_, hmore⟩
    simp only [hspan, width_append, Nat.add_assoc]

end

end Lexer

/-- The tokens tile the text. -/
structure Tiling (text : String) (tokens : List SpannedToken) : Prop where
  ends : ∃ read, tokens = read ++ [⟨.endOfInput, ⟨text.utf8ByteSize, text.utf8ByteSize⟩⟩] ∧
    ∀ t ∈ read, t.token ≠ .endOfInput ∧ t.span.start < t.span.stop
  ordered : tokens.Pairwise fun a b => a.span.stop ≤ b.span.start
  cuts : ∀ t ∈ tokens, t.span.Cuts text
  layout : ∀ gap ∈ gaps 0 tokens, ∃ piece, gap.Covers text piece ∧
    Layout (gap.stop = text.utf8ByteSize) piece.toList
  alone : ∀ t ∈ tokens, t.token ≠ .endOfInput → ∃ piece, t.span.Covers text piece ∧
    lex piece = .ok [⟨t.token, ⟨0, piece.utf8ByteSize⟩⟩,
      ⟨.endOfInput, ⟨piece.utf8ByteSize, piece.utf8ByteSize⟩⟩]

section

variable {text : String} {before w after : List Char}

theorem covers_ofList (h : text.toList = before ++ w ++ after) :
    Span.Covers ⟨width before, width before + width w⟩ text (String.ofList w) := by
  refine ⟨String.ofList before, String.ofList after, ?_, rfl, rfl⟩
  rw [← String.ofList_append, ← String.ofList_append, ← h, String.ofList_toList]

/-- A token that is written by itself is read, and nothing else. -/
theorem lex_of_spells {t : Token} (h : Spells t w) :
    lex (String.ofList w) = .ok [⟨t, ⟨0, width w⟩⟩, ⟨.endOfInput, ⟨width w, width w⟩⟩] := by
  have hrest : Separates [] := by simp [Separates]
  have hread : tokensFrom 0 (w ++ []) [] = _ := tokensFrom_spells h hrest
  have hend : skipLayout false (0 + width w) [] = (0 + width w, []) := rfl
  rw [List.append_nil, tokensFrom_end hend, Nat.zero_add] at hread
  rw [lex, String.toList_ofList, hread]
  rfl

theorem isEmpty_eq_of_width (h : text.toList = before ++ w ++ after) :
    after.isEmpty = decide (width before + width w = text.utf8ByteSize) := by
  rw [utf8ByteSize_eq_width, h, width_append, width_append]
  cases after with
  | nil => simp
  | cons c after =>
    have := Char.utf8Size_pos c
    simp only [List.isEmpty_cons, width_cons, Bool.false_eq, decide_eq_false_iff_not]
    omega

theorem lex_tiles {tokens : List SpannedToken} (h : lex text = .ok tokens) :
    Tiling text tokens := by
  obtain ⟨tokens, rfl, htiles⟩ := exists_tiles h
  obtain ⟨read, hread, hwritten⟩ := htiles.exists_written
  simp only [Nat.zero_add, ← utf8ByteSize_eq_width] at hread hwritten
  refine ⟨⟨read, hread, fun t ht => ?_⟩, htiles.pairwise, (places_of_lex text).2 _ h, ?_, ?_⟩
  · obtain ⟨before, w, after, -, hw, hspan⟩ := hwritten t ht
    rw [hspan]
    exact ⟨hw.ne_endOfInput, Nat.lt_add_of_pos_right hw.width_pos⟩
  · intro gap hgap
    obtain ⟨before, piece, after, hcs, rfl, hlayout⟩ := htiles.gaps gap hgap
    rw [Nat.zero_add]
    refine ⟨String.ofList piece, covers_ofList hcs, ?_⟩
    rwa [String.toList_ofList, ← isEmpty_eq_of_width hcs]
  · intro t ht hne
    subst hread
    rcases List.mem_append.1 ht with ht | ht
    · obtain ⟨before, w, after, hcs, hw, hspan⟩ := hwritten t ht
      rw [hspan]
      exact ⟨String.ofList w, covers_ofList hcs, lex_of_spells hw⟩
    · obtain rfl := List.mem_singleton.1 ht
      exact absurd rfl hne

/-- A comment, an escape, and characters of several bytes. -/
theorem lex_tiles_note : ∃ tokens, lex "say('\\té', `ö`) // é" = .ok tokens ∧
    Tiling "say('\\té', `ö`) // é" tokens := by
  have h : lex "say('\\té', `ö`) // é" = .ok [⟨.ident "say", ⟨0, 3⟩⟩, ⟨.mark .openParen, ⟨3, 4⟩⟩,
      ⟨.string "\té", ⟨4, 10⟩⟩, ⟨.mark .comma, ⟨10, 11⟩⟩, ⟨.text "ö", ⟨12, 16⟩⟩,
      ⟨.mark .closeParen, ⟨16, 17⟩⟩, ⟨.endOfInput, ⟨23, 23⟩⟩] := by cbv
  exact ⟨_, h, lex_tiles h⟩

end

end EventScript
