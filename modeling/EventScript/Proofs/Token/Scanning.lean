import Mathlib
import EventScript.Proofs.Outcome
import EventScript.Token.Lexer

/-!
Where scanners stand. Each of them passes over whole characters, so that tokens begin and end
between characters of the source, and so do the places of complaints, but for one: an escape is
complained about with two bytes, which may end within its character.
-/
namespace EventScript.Lexer

/-- How many bytes these characters take. -/
def width (cs : List Char) : Nat := (String.ofList cs).utf8ByteSize

@[simp] theorem width_nil : width [] = 0 := rfl

@[simp] theorem width_append (cs cs' : List Char) : width (cs ++ cs') = width cs + width cs' := by
  simp [width, String.ofList_append]

@[simp] theorem width_cons (c : Char) (cs : List Char) : width (c :: cs) = c.utf8Size + width cs := by
  rw [← List.singleton_append, width_append, width, ← String.singleton_eq_ofList,
    String.utf8ByteSize_singleton]

/-- Going on from `cs`, which begins at byte `pos`, one comes to `cs'` at byte `pos'`. -/
def Passes (pos : Nat) (cs : List Char) (pos' : Nat) (cs' : List Char) : Prop :=
  ∃ passed, cs = passed ++ cs' ∧ pos' = pos + width passed

section

variable {pos pos₁ pos₂ : Nat} {cs cs₁ cs₂ : List Char} {c : Char}

theorem Passes.refl (pos : Nat) (cs : List Char) : Passes pos cs pos cs := ⟨[], by simp⟩

theorem Passes.trans (h : Passes pos cs pos₁ cs₁) (h' : Passes pos₁ cs₁ pos₂ cs₂) :
    Passes pos cs pos₂ cs₂ := by
  obtain ⟨passed, rfl, rfl⟩ := h
  obtain ⟨passed', rfl, rfl⟩ := h'
  exact ⟨passed ++ passed', by simp [Nat.add_assoc]⟩

theorem Passes.le (h : Passes pos cs pos₁ cs₁) : pos ≤ pos₁ := by
  obtain ⟨_, _, rfl⟩ := h
  exact Nat.le_add_right _ _

theorem Passes.of_eq (h : Passes pos cs pos₁ cs₁) (hpos : pos₁ = pos₂) : Passes pos cs pos₂ cs₁ :=
  hpos ▸ h

theorem passes_cons : Passes pos (c :: cs) (pos + c.utf8Size) cs := ⟨[c], by simp⟩

/-- A character of one byte. -/
theorem passes_byte (h : c.utf8Size = 1) : Passes pos (c :: cs) (pos + 1) cs := h ▸ passes_cons

theorem passes_escape (h : c.utf8Size = 1) : Passes pos ('\\' :: c :: cs) (pos + 2) cs := by
  have hbackslash : Passes pos ('\\' :: c :: cs) (pos + 1) (c :: cs) := passes_byte rfl
  exact hbackslash.trans (passes_byte h)

end

/-! ### Characters of one byte -/

theorem utf8Size_of_isDigit {c : Char} (h : c.isDigit = true) : c.utf8Size = 1 := by
  have hle : c.val ≤ 0x7f := by
    simp only [Char.isDigit, Bool.and_eq_true, decide_eq_true_eq] at h
    exact UInt32.le_trans h.2 (by decide)
  exact if_pos hle

theorem utf8Size_of_isIdentPart {c : Char} (h : isIdentPart c = true) : c.utf8Size = 1 := by
  have hle : c.val ≤ 0x7f := by
    simp only [isIdentPart, Char.isAlphanum, Char.isAlpha, Char.isUpper, Char.isLower, Char.isDigit,
      Bool.or_eq_true, Bool.and_eq_true, decide_eq_true_eq] at h
    rcases h with ((h | h) | h) | rfl
    · exact UInt32.le_trans h.2 (by decide)
    · exact UInt32.le_trans h.2 (by decide)
    · exact UInt32.le_trans h.2 (by decide)
    · decide
  exact if_pos hle

theorem isIdentPart_of_isIdentStart {c : Char} (h : isIdentStart c = true) :
    isIdentPart c = true := by
  simp only [isIdentStart, isIdentPart, Char.isAlphanum, Bool.or_eq_true] at h ⊢
  exact h.imp_left .inl

theorem utf8Size_of_escaped? {c value : Char} (h : escaped? c = some value) : c.utf8Size = 1 := by
  unfold escaped? at h
  split at h <;> first | rfl | cases h

theorem utf8Size_of_mark? {c : Char} {m : Mark} (h : mark? c = some m) : c.utf8Size = 1 := by
  unfold mark? at h
  split at h <;> first | rfl | cases h

theorem width_eq_length {cs : List Char} (h : ∀ c ∈ cs, c.utf8Size = 1) : width cs = cs.length := by
  induction cs with
  | nil => rfl
  | cons c cs ih =>
    have h := List.forall_mem_cons.1 h
    rw [width_cons, List.length_cons, h.1, ih h.2, Nat.add_comm]

theorem passes_dropWhile (p : Char → Bool) (h : ∀ c, p c = true → c.utf8Size = 1) (pos : Nat)
    (cs : List Char) : Passes pos cs (pos + (cs.takeWhile p).length) (cs.dropWhile p) := by
  refine ⟨cs.takeWhile p, (List.takeWhile_append_dropWhile).symm, ?_⟩
  rw [width_eq_length fun c hc => h c (List.mem_takeWhile_imp hc)]

/-! ### Scanners -/

section

variable {pos start stop : Nat} {c quote : Char} {read cs rest : List Char} {s : String}
  {token : Token}

theorem passes_skipLayout (inComment : Bool) (pos : Nat) (cs : List Char) :
    Passes pos cs (skipLayout inComment pos cs).1 (skipLayout inComment pos cs).2 := by
  fun_induction skipLayout inComment pos cs with
  | case1 | case5 => exact .refl _ _
  | case2 pos c cs ih => exact passes_cons.trans ih
  | case3 pos cs ih =>
    have hslash {pos : Nat} {cs : List Char} : Passes pos ('/' :: cs) (pos + 1) cs := passes_byte rfl
    exact (hslash.trans hslash).trans ih
  | case4 pos c cs _ hblank ih =>
    refine (passes_byte ?_).trans ih
    simp only [Bool.or_eq_true, decide_eq_true_eq] at hblank
    rcases hblank with ((rfl | rfl) | rfl) | rfl <;> rfl

theorem passes_scanString (hquote : quote.utf8Size = 1)
    (h : scanString quote start pos read cs = .ok (s, stop, rest)) : Passes pos cs stop rest := by
  fun_induction scanString quote start pos read cs with
  | case1 | case2 | case4 | case6 => cases h
  | case3 =>
    cases h
    exact passes_byte hquote
  | case5 _ _ _ _ value hvalue _ _ ih =>
    exact (passes_escape (utf8Size_of_escaped? hvalue)).trans (ih h)
  | case7 _ _ _ _ _ _ _ ih => exact passes_cons.trans (ih h)

theorem passes_scanText (h : scanText start pos read cs = .ok (s, stop, rest)) :
    Passes pos cs stop rest := by
  fun_induction scanText start pos read cs with
  | case1 => cases h
  | case2 =>
    cases h
    exact passes_byte rfl
  | case3 _ _ _ _ _ ih => exact passes_cons.trans (ih h)

theorem passes_scanFraction (pos : Nat) (cs : List Char) :
    Passes pos cs
      (pos + if (scanFraction cs).1.isEmpty then 0 else 1 + (scanFraction cs).1.length)
      (scanFraction cs).2 := by
  unfold scanFraction
  split
  · rename_i d cs
    split
    · rename_i hd
      have hpoint : Passes pos ('.' :: d :: cs) (pos + 1) (d :: cs) := passes_byte rfl
      have hdigits := passes_dropWhile Char.isDigit (fun _ => utf8Size_of_isDigit) (pos + 1 + 1) cs
      refine (hpoint.trans ((passes_byte (utf8Size_of_isDigit hd)).trans hdigits)).of_eq ?_
      simp only [List.isEmpty_cons, Bool.false_eq_true, if_false, List.length_cons]
      omega
    · exact .refl _ _
  · exact .refl _ _

theorem passes_scanNumber (pos : Nat) (cs : List Char) (hc : c.isDigit = true) :
    Passes pos (c :: cs) (scanNumber pos c cs).2.1 (scanNumber pos c cs).2.2 := by
  have hfirst : Passes pos (c :: cs) (pos + 1) cs := passes_byte (utf8Size_of_isDigit hc)
  have hmore := passes_dropWhile Char.isDigit (fun _ => utf8Size_of_isDigit) (pos + 1) cs
  refine ((hfirst.trans hmore).trans (passes_scanFraction _ _)).of_eq ?_
  simp only [scanNumber, List.length_cons]
  omega

theorem passes_scanWord (pos : Nat) (cs : List Char) (hc : isIdentPart c = true) :
    Passes pos (c :: cs) (scanWord pos c cs).2.1 (scanWord pos c cs).2.2 := by
  have hfirst : Passes pos (c :: cs) (pos + 1) cs := passes_byte (utf8Size_of_isIdentPart hc)
  have hmore := passes_dropWhile isIdentPart (fun _ => utf8Size_of_isIdentPart) (pos + 1) cs
  refine (hfirst.trans hmore).of_eq ?_
  simp only [scanWord, List.length_cons]
  omega

theorem passes_scanMark (pos : Nat) (m : Mark) (cs : List Char) (hc : c.utf8Size = 1) :
    Passes pos (c :: cs) (scanMark pos m cs).2.1 (scanMark pos m cs).2.2 := by
  unfold scanMark
  split
  · exact (passes_byte hc).trans (passes_byte rfl)
  · exact passes_byte hc

/-- A token takes up whole characters. -/
theorem passes_scanToken (h : scanToken pos c cs = .ok (token, stop, rest)) :
    Passes pos (c :: cs) stop rest := by
  unfold scanToken at h
  split at h
  · rename_i m hmark
    have hpasses := passes_scanMark pos m cs (utf8Size_of_mark? hmark)
    rwa [Except.ok.inj h] at hpasses
  split at h
  · rename_i hquote
    have hbyte : c.utf8Size = 1 := by
      simp only [Bool.or_eq_true, decide_eq_true_eq] at hquote
      rcases hquote with rfl | rfl <;> rfl
    obtain ⟨⟨s, stop, rest⟩, hs, heq⟩ := map_eq_ok.1 h
    cases heq
    exact (passes_byte hbyte).trans (passes_scanString hbyte hs)
  split at h
  · rename_i hc
    subst hc
    obtain ⟨⟨s, stop, rest⟩, hs, heq⟩ := map_eq_ok.1 h
    cases heq
    exact (passes_byte rfl).trans (passes_scanText hs)
  split at h
  · rename_i hc
    have hpasses := passes_scanNumber pos cs hc
    rwa [Except.ok.inj h] at hpasses
  split at h
  · rename_i hc
    have hpasses := passes_scanWord pos cs (isIdentPart_of_isIdentStart hc)
    rwa [Except.ok.inj h] at hpasses
  · cases h

end

end EventScript.Lexer
