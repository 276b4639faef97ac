import EventScript.Proofs.Complaints
import EventScript.Proofs.Token.Scanning

/-!
Places of tokens and of what cannot be read as one. Every token begins and ends between characters
of its source. A complaint does so too, unless it is about an escape whose character takes several
bytes: its place then ends within that character, and is the only kind of place that does.
-/
namespace EventScript

open Lexer

/-- The span can be cut out of the text: both of its ends lie between characters. -/
structure Span.Cuts (text : String) (s : Span) : Prop where
  ordered : s.start ≤ s.stop
  start : String.Pos.Raw.IsValid text ⟨s.start⟩
  stop : String.Pos.Raw.IsValid text ⟨s.stop⟩

/-- The error is about an escape whose character takes several bytes. Its place is the backslash and
the first byte of that character. -/
def CompileError.SplitsEscape (e : CompileError) (text : String) : Prop :=
  e.complaint = .invalidEscape ∧ ∃ before c after,
    text.toList = before ++ '\\' :: c :: after ∧ 1 < c.utf8Size ∧
      e.span = ⟨width before, width before + 2⟩

section

variable {text : String}

theorem isValid_iff_passes {n : Nat} :
    String.Pos.Raw.IsValid text ⟨n⟩ ↔ ∃ rest, Passes 0 text.toList n rest := by
  rw [String.Pos.Raw.isValid_iff_exists_append]
  constructor
  · rintro ⟨s, t, rfl, hn⟩
    refine ⟨t.toList, s.toList, String.toList_append, ?_⟩
    rw [width, String.ofList_toList, Nat.zero_add]
    exact congrArg String.Pos.Raw.byteIdx hn
  · rintro ⟨rest, passed, htext, rfl⟩
    refine ⟨String.ofList passed, String.ofList rest, ?_, ?_⟩
    · rw [← String.ofList_append, ← htext, String.ofList_toList]
    · rw [Nat.zero_add]
      rfl

theorem utf8ByteSize_eq_width (text : String) : text.utf8ByteSize = width text.toList := by
  rw [width, String.ofList_toList]

theorem places_cuts (text : String) : Span.Places (Span.Cuts text) where
  none := ⟨Nat.le_refl _, String.Pos.Raw.isValid_zero, String.Pos.Raw.isValid_zero⟩
  merge {a b} ha hb := by
    refine ⟨?_, ?_, ?_⟩
    · exact (Nat.min_le_left _ _).trans (ha.ordered.trans (Nat.le_max_left _ _))
    · rcases Nat.le_total a.start b.start with h | h
      · simpa [Span.merge, Nat.min_eq_left h] using ha.start
      · simpa [Span.merge, Nat.min_eq_right h] using hb.start
    · rcases Nat.le_total a.stop b.stop with h | h
      · simpa [Span.merge, Nat.max_eq_right h] using hb.stop
      · simpa [Span.merge, Nat.max_eq_left h] using ha.stop

/-- Two bytes from a backslash on one is within the character behind it, if that takes several. -/
theorem not_isValid_of_escape {before after : List Char} {c : Char}
    (htext : text.toList = before ++ '\\' :: c :: after) (hc : 1 < c.utf8Size) :
    ¬String.Pos.Raw.IsValid text ⟨width before + 2⟩ := by
  have hbackslash : '\\'.utf8Size = 1 := rfl
  rw [isValid_iff_passes]
  rintro ⟨rest, passed, hover, hwidth⟩
  rcases List.append_eq_append_iff.1 (htext.symm.trans hover) with ⟨more, rfl, hmore⟩ | ⟨more, rfl, _⟩
  · -- What is passed behind `before` has two bytes.
    rcases more with _ | ⟨d, _ | ⟨d', more⟩⟩
    · simp at hwidth
    · cases hmore
      simp [hbackslash] at hwidth
    · cases hmore
      simp [hbackslash] at hwidth
      omega
  · simp at hwidth
    omega

namespace Lexer

/-- An error that no source is named in yet, about a place that can be cut out of the text or ends
within an escaped character. -/
def Blames (text : String) (e : CompileError) : Prop :=
  e.source? = none ∧ (e.span.Cuts text ∨ e.SplitsEscape text)

variable {pos pos' start stop : Nat} {cs cs' read rest : List Char} {c quote : Char}
  {e : CompileError}

theorem cuts_of_passes (hpos : Passes 0 text.toList pos cs) (h : Passes pos cs pos' cs') :
    Span.Cuts text ⟨pos, pos'⟩ :=
  ⟨h.le, isValid_iff_passes.2 ⟨_, hpos⟩, isValid_iff_passes.2 ⟨_, hpos.trans h⟩⟩

theorem blames_of_refuse {α : Type} {complaint : CompileError.Complaint} {span : Span}
    (hspan : span.Cuts text) (h : (refuse complaint span : Compiled α) = .error e) :
    Blames text e := by
  cases h
  exact ⟨rfl, .inl hspan⟩

theorem blames_of_scanString (hpos : Passes 0 text.toList pos cs)
    (hstart : String.Pos.Raw.IsValid text ⟨start⟩) (hle : start ≤ pos)
    (h : scanString quote start pos read cs = .error e) : Blames text e := by
  have hopen {pos : Nat} {cs : List Char} (hpos : Passes 0 text.toList pos cs) (hle : start ≤ pos) :
      Span.Cuts text ⟨start, pos⟩ := ⟨hle, hstart, isValid_iff_passes.2 ⟨_, hpos⟩⟩
  fun_induction scanString quote start pos read cs with
  | case1 | case2 => exact blames_of_refuse (hopen hpos hle) h
  | case3 => cases h
  | case4 => exact blames_of_refuse (cuts_of_passes hpos (passes_byte rfl)) h
  | case5 _ _ _ _ _ hvalue _ _ ih =>
    have hescape := hpos.trans (passes_escape (utf8Size_of_escaped? hvalue))
    exact ih hescape (hle.trans (Nat.le_add_right _ 2)) h
  | case6 pos _ c cs =>
    by_cases hc : c.utf8Size = 1
    · exact blames_of_refuse (cuts_of_passes hpos (passes_escape hc)) h
    · obtain ⟨before, htext, rfl⟩ := hpos
      cases h
      refine ⟨rfl, .inr ⟨rfl, before, c, cs, htext, ?_, by simp⟩⟩
      have := c.utf8Size_pos
      omega
  | case7 _ _ _ _ _ _ _ ih =>
    exact ih (hpos.trans passes_cons) (hle.trans (Nat.le_add_right _ _)) h

theorem blames_of_scanText (hpos : Passes 0 text.toList pos cs)
    (hstart : String.Pos.Raw.IsValid text ⟨start⟩) (hle : start ≤ pos)
    (h : scanText start pos read cs = .error e) : Blames text e := by
  fun_induction scanText start pos read cs with
  | case1 => exact blames_of_refuse ⟨hle, hstart, isValid_iff_passes.2 ⟨_, hpos⟩⟩ h
  | case2 => cases h
  | case3 _ _ _ _ _ ih => exact ih (hpos.trans passes_cons) (hle.trans (Nat.le_add_right _ _)) h

theorem blames_of_scanToken (hpos : Passes 0 text.toList pos (c :: cs))
    (h : scanToken pos c cs = .error e) : Blames text e := by
  have hstart := isValid_iff_passes.2 ⟨_, hpos⟩
  unfold scanToken at h
  split at h
  · cases h
  split at h
  · rename_i hquote
    have hbyte : c.utf8Size = 1 := by
      simp only [Bool.or_eq_true, decide_eq_true_eq] at hquote
      rcases hquote with rfl | rfl <;> rfl
    exact blames_of_scanString (hpos.trans (passes_byte hbyte)) hstart (Nat.le_succ _)
      (map_eq_error.1 h)
  split at h
  · rename_i hc
    subst hc
    exact blames_of_scanText (hpos.trans (passes_byte rfl)) hstart (Nat.le_succ _)
      (map_eq_error.1 h)
  split at h
  · cases h
  split at h
  · cases h
  · exact blames_of_refuse (cuts_of_passes hpos passes_cons) h

/-- Tokens can be cut out of the source, and errors have their places in it. -/
theorem places_of_tokensFrom {tokens : List SpannedToken} (hpos : Passes 0 text.toList pos cs)
    (hread : ∀ t ∈ tokens, t.span.Cuts text) :
    (∀ e, tokensFrom pos cs tokens = .error e → Blames text e) ∧
      ∀ all, tokensFrom pos cs tokens = .ok all → ∀ t ∈ all, t.span.Cuts text := by
  fun_induction tokensFrom pos cs tokens with
  | case1 pos cs tokens start hskip =>
    have hpasses := passes_skipLayout false pos cs
    rw [hskip] at hpasses
    refine ⟨fun _ h => (nomatch h), ?_⟩
    rintro _ ⟨⟩
    simp only [List.mem_reverse]
    exact List.forall_mem_cons.2 ⟨cuts_of_passes (hpos.trans hpasses) (.refl _ _), hread⟩
  | case2 pos cs tokens start c rest hskip e hscan =>
    have hpasses := passes_skipLayout false pos cs
    rw [hskip] at hpasses
    refine ⟨?_, fun _ h => nomatch h⟩
    rintro _ ⟨⟩
    exact blames_of_scanToken (hpos.trans hpasses) hscan
  | case3 pos cs tokens start c rest hskip token stop rest' hscan ih =>
    have hpasses := passes_skipLayout false pos cs
    rw [hskip] at hpasses
    have htoken := passes_scanToken hscan
    have hstart := hpos.trans hpasses
    exact ih (hstart.trans htoken) (List.forall_mem_cons.2 ⟨cuts_of_passes hstart htoken, hread⟩)

end Lexer

theorem places_of_lex (text : String) :
    (∀ e, lex text = .error e → Blames text e) ∧
      ∀ tokens, lex text = .ok tokens → ∀ t ∈ tokens, t.span.Cuts text :=
  places_of_tokensFrom (.refl _ _) (by simp)

end

end EventScript
