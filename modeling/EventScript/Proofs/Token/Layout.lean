import EventScript.Proofs.Token.Scanning

/-!
What stands between tokens: blanks and comments. What is passed over on the way to a token is of
them, and all that is of them is passed over.
-/
namespace EventScript.Lexer

/-- A space, a tab, a newline or a carriage return. -/
def IsBlank (c : Char) : Prop := c = ' ' ∨ c = '\t' ∨ c = '\n' ∨ c = '\r'

instance : DecidablePred IsBlank :=
  fun c => inferInstanceAs (Decidable (c = ' ' ∨ c = '\t' ∨ c = '\n' ∨ c = '\r'))

/-- Blanks and comments, each comment with the newline that ends its line. In the `last` line of a
text a comment has none. -/
inductive Layout (last : Bool) : List Char → Prop where
  | done : Layout last []
  | blank {c : Char} {cs : List Char} (hc : IsBlank c) (more : Layout last cs) :
    Layout last (c :: cs)
  | comment {line cs : List Char} (hline : '\n' ∉ line) (more : Layout last cs) :
    Layout last ('/' :: '/' :: (line ++ '\n' :: cs))
  | lastComment {line : List Char} (hlast : last = true) (hline : '\n' ∉ line) :
    Layout last ('/' :: '/' :: line)

/-- What a comment goes on with: the rest of its line, and layout behind it. -/
def EndsComment (last : Bool) (cs : List Char) : Prop :=
  (∃ line more, cs = line ++ '\n' :: more ∧ '\n' ∉ line ∧ Layout last more) ∨
    (last = true ∧ '\n' ∉ cs)

section

variable {last : Bool} {c : Char} {cs gap line : List Char} {pos : Nat}

theorem EndsComment.cons (hc : c ≠ '\n') (h : EndsComment last cs) :
    EndsComment last (c :: cs) := by
  rcases h with ⟨line, more, rfl, hline, hmore⟩ | ⟨hlast, hcs⟩
  · exact .inl ⟨c :: line, more, rfl, List.not_mem_cons_of_ne_of_not_mem hc.symm hline, hmore⟩
  · exact .inr ⟨hlast, List.not_mem_cons_of_ne_of_not_mem hc.symm hcs⟩

theorem EndsComment.layout (h : EndsComment last cs) : Layout last ('/' :: '/' :: cs) := by
  rcases h with ⟨line, more, rfl, hline, hmore⟩ | ⟨hlast, hcs⟩
  · exact .comment hline hmore
  · exact .lastComment hlast hcs

/-- What is passed over is layout, and comes to an end within a comment only where the text does. -/
theorem exists_layout_skipLayout (inComment : Bool) (pos : Nat) (cs : List Char) :
    ∃ gap, cs = gap ++ (skipLayout inComment pos cs).2 ∧
      (if inComment then EndsComment (skipLayout inComment pos cs).2.isEmpty gap
        else Layout (skipLayout inComment pos cs).2.isEmpty gap) := by
  fun_induction skipLayout inComment pos cs with
  | case1 inComment pos =>
    refine ⟨[], rfl, ?_⟩
    cases inComment with
    | true => exact .inr ⟨rfl, List.not_mem_nil⟩
    | false => exact .done
  | case2 pos c cs ih =>
    obtain ⟨gap, hgap, hlayout⟩ := ih
    refine ⟨c :: gap, by rw [List.cons_append, ← hgap], ?_⟩
    by_cases hc : c = '\n'
    · subst hc
      exact .inl ⟨[], gap, rfl, List.not_mem_nil, hlayout⟩
    · rw [if_pos (bne_iff_ne.2 hc)] at hlayout
      exact hlayout.cons hc
  | case3 pos cs ih =>
    obtain ⟨gap, hgap, hlayout⟩ := ih
    exact ⟨'/' :: '/' :: gap, by rw [List.cons_append, List.cons_append, ← hgap], hlayout.layout⟩
  | case4 pos c cs _ hblank ih =>
    obtain ⟨gap, hgap, hlayout⟩ := ih
    refine ⟨c :: gap, by rw [List.cons_append, ← hgap], .blank ?_ hlayout⟩
    simpa [IsBlank, or_assoc] using hblank
  | case5 pos c cs => exact ⟨[], rfl, .done⟩

theorem skipLayout_line (hline : '\n' ∉ line) :
    skipLayout true pos (line ++ '\n' :: cs) = skipLayout false (pos + width line + 1) cs := by
  induction line generalizing pos with
  | nil => rfl
  | cons c line ih =>
    obtain ⟨hc, hline⟩ := not_or.1 (mt List.mem_cons.2 hline)
    rw [List.cons_append, skipLayout, bne_iff_ne.2 (Ne.symm hc), ih hline, width_cons,
      Nat.add_assoc pos]

theorem skipLayout_lastLine (hline : '\n' ∉ line) :
    skipLayout true pos line = (pos + width line, []) := by
  induction line generalizing pos with
  | nil => rfl
  | cons c line ih =>
    obtain ⟨hc, hline⟩ := not_or.1 (mt List.mem_cons.2 hline)
    rw [skipLayout, bne_iff_ne.2 (Ne.symm hc), ih hline, width_cons, Nat.add_assoc pos]

theorem skipLayout_blank (hc : IsBlank c) :
    skipLayout false pos (c :: cs) = skipLayout false (pos + 1) cs := by
  rcases hc with rfl | rfl | rfl | rfl <;> simp [skipLayout]

theorem IsBlank.utf8Size (hc : IsBlank c) : c.utf8Size = 1 := by
  rcases hc with rfl | rfl | rfl | rfl <;> rfl

/-- Layout is passed over. -/
theorem skipLayout_append (hgap : Layout last gap) (hlast : last = true → cs = []) :
    skipLayout false pos (gap ++ cs) = skipLayout false (pos + width gap) cs := by
  have hslash : '/'.utf8Size = 1 := rfl
  have hnewline : '\n'.utf8Size = 1 := rfl
  induction hgap generalizing pos with
  | done => rfl
  | blank hc _ ih =>
    rw [List.cons_append, skipLayout_blank hc, ih, width_cons, hc.utf8Size, Nat.add_assoc]
  | @comment line more hline _ ih =>
    simp only [List.cons_append, List.append_assoc, skipLayout]
    rw [skipLayout_line hline, ih]
    congr 1
    simp only [width_cons, width_append, hslash, hnewline]
    omega
  | lastComment h hline =>
    obtain rfl := hlast h
    simp only [List.append_nil, skipLayout, skipLayout_lastLine hline, width_cons, hslash]
    congr 1
    omega

end

end EventScript.Lexer
