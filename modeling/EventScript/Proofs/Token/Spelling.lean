import EventScript.Proofs.Token.Layout

/-!
How tokens are written. What is scanned as a token is a way to write it, and each way to write a
token is scanned as that token where nothing or a blank comes behind it.
-/
namespace EventScript.Lexer

/-! ### Strings -/

/-- The letters of escapes, with the characters that they stand for. -/
def escapes : List (Char × Char) :=
  [('n', '\n'), ('t', '\t'), ('\\', '\\'), ('"', '"'), ('\'', '\'')]

theorem escaped?_eq_some_iff {e c : Char} : escaped? e = some c ↔ (e, c) ∈ escapes := by
  unfold escaped?
  split <;> simp_all [escapes, eq_comm]

/-- A way to write a character of a string: as it is or, if there is one, by its escape. -/
inductive SpellsChar (quote c : Char) : List Char → Prop where
  | plain (hline : c ≠ '\n') (hquote : c ≠ quote) (hbackslash : c ≠ '\\') : SpellsChar quote c [c]
  | escape {e : Char} (he : (e, c) ∈ escapes) : SpellsChar quote c ['\\', e]

/-- A way to write the characters of a string between its quotes. -/
inductive SpellsChars (quote : Char) : List Char → List Char → Prop where
  | nil : SpellsChars quote [] []
  | cons {c : Char} {s w v : List Char} (first : SpellsChar quote c w)
    (more : SpellsChars quote s v) : SpellsChars quote (c :: s) (w ++ v)

def IsQuote (c : Char) : Prop := c = '"' ∨ c = '\''

section

variable {quote c : Char} {s w read cs rest : List Char} {start pos stop : Nat} {value : String}

theorem IsQuote.utf8Size (h : IsQuote quote) : quote.utf8Size = 1 := by
  rcases h with rfl | rfl <;> rfl

theorem IsQuote.ne_backslash (h : IsQuote quote) : quote ≠ '\\' := by
  rcases h with rfl | rfl <;> decide

theorem IsQuote.ne_newline (h : IsQuote quote) : quote ≠ '\n' := by
  rcases h with rfl | rfl <;> decide

/-- Each string can be written between either quotes. -/
theorem exists_spellsChars (hquote : IsQuote quote) (s : List Char) :
    ∃ w, SpellsChars quote s w := by
  induction s with
  | nil => exact ⟨[], .nil⟩
  | cons c s ih =>
    obtain ⟨v, hv⟩ := ih
    have hc : ∃ w, SpellsChar quote c w := by
      by_cases h : c = '\n' ∨ c = quote ∨ c = '\\'
      · have hescape : ∃ e, (e, c) ∈ escapes := by
          rcases hquote with rfl | rfl <;> rcases h with rfl | rfl | rfl <;> simp [escapes]
        obtain ⟨e, he⟩ := hescape
        exact ⟨_, .escape he⟩
      · simp only [not_or] at h
        exact ⟨_, .plain h.1 h.2.1 h.2.2⟩
    obtain ⟨w, hw⟩ := hc
    exact ⟨w ++ v, .cons hw hv⟩

/-- What is scanned up to the quote is a way to write what is answered. -/
theorem exists_spellsChars_of_scanString
    (h : scanString quote start pos read cs = .ok (value, stop, rest)) :
    ∃ s w, SpellsChars quote s w ∧ cs = w ++ quote :: rest ∧
      value = String.ofList (read.reverse ++ s) := by
  fun_induction scanString quote start pos read cs with
  | case1 | case2 | case4 | case6 => cases h
  | case3 =>
    cases h
    exact ⟨[], [], .nil, rfl, by rw [List.append_nil]⟩
  | case5 _ _ e cs value he _ _ ih =>
    obtain ⟨s, w, hw, rfl, hvalue⟩ := ih h
    refine ⟨value :: s, _, .cons (.escape (escaped?_eq_some_iff.1 he)) hw, rfl, ?_⟩
    rw [hvalue, List.reverse_cons, List.append_assoc, List.singleton_append]
  | case7 _ _ c cs hline hquote hbackslash ih =>
    obtain ⟨s, w, hw, rfl, hvalue⟩ := ih h
    refine ⟨c :: s, _, .cons (.plain hline hquote hbackslash) hw, rfl, ?_⟩
    rw [hvalue, List.reverse_cons, List.append_assoc, List.singleton_append]

theorem scanString_plain (hline : c ≠ '\n') (hquote : c ≠ quote) (hbackslash : c ≠ '\\') :
    scanString quote start pos read (c :: cs) =
      scanString quote start (pos + c.utf8Size) (c :: read) cs := by
  rw [scanString.eq_def]
  simp only [if_neg hline, if_neg hquote, if_neg hbackslash]

theorem scanString_escape {e : Char} (hquote : IsQuote quote) (he : (e, c) ∈ escapes) :
    scanString quote start pos read ('\\' :: e :: cs) =
      scanString quote start (pos + 2) (c :: read) cs := by
  rw [scanString.eq_def]
  simp only [if_neg hquote.ne_backslash.symm, escaped?_eq_some_iff.2 he]
  rfl

theorem scanString_quote (hquote : IsQuote quote) :
    scanString quote start pos read (quote :: cs) =
      .ok (String.ofList read.reverse, pos + 1, cs) := by
  rw [scanString.eq_def]
  simp only [if_neg hquote.ne_newline, if_true]

/-- Each way to write a string is scanned up to its quote. -/
theorem scanString_append (hquote : IsQuote quote) (h : SpellsChars quote s w) :
    scanString quote start pos read (w ++ quote :: rest) =
      .ok (String.ofList (read.reverse ++ s), pos + width w + 1, rest) := by
  induction h generalizing pos read with
  | nil => rw [List.append_nil]; exact scanString_quote hquote
  | @cons c s w v first _ ih =>
    have hread : (c :: read).reverse ++ s = read.reverse ++ c :: s := by simp
    cases first with
    | plain hline hne hbackslash =>
      rw [List.append_assoc, List.singleton_append, scanString_plain hline hne hbackslash, ih,
        hread, List.singleton_append, width_cons, Nat.add_assoc pos]
    | escape he =>
      have hsize := utf8Size_of_escaped? (escaped?_eq_some_iff.2 he)
      have hbackslash : '\\'.utf8Size = 1 := rfl
      simp only [List.cons_append, List.nil_append]
      rw [scanString_escape hquote he, ih, hread, width_cons, width_cons, hsize, hbackslash,
        Nat.add_assoc pos]
      congr 4
      omega

end

/-! ### Tokens -/

/-- The characters are a word. -/
def IsIdent : List Char → Prop
  | [] => False
  | c :: cs => isIdentStart c = true ∧ ∀ d ∈ cs, isIdentPart d = true

/-- Some digits, and no other characters. -/
def IsDigits (cs : List Char) : Prop := cs ≠ [] ∧ ∀ c ∈ cs, c.isDigit = true

/-- A way to write a token. -/
inductive Spells : Token → List Char → Prop where
  | whole {digits : List Char} (hdigits : IsDigits digits) :
    Spells (.number (Decimal.ofParts digits []).toNumber) digits
  | decimal {digits fraction : List Char} (hdigits : IsDigits digits)
    (hfraction : IsDigits fraction) :
    Spells (.number (Decimal.ofParts digits fraction).toNumber) (digits ++ '.' :: fraction)
  | string {quote : Char} {s w : List Char} (hquote : IsQuote quote) (h : SpellsChars quote s w) :
    Spells (.string (String.ofList s)) (quote :: (w ++ [quote]))
  | text {markup : List Char} (h : '\x60' ∉ markup) :
    Spells (.text (String.ofList markup)) ('\x60' :: (markup ++ ['\x60']))
  | ident {cs : List Char} (hword : IsIdent cs) (hname : ∀ k : Keyword, k.text ≠ String.ofList cs) :
    Spells (.ident (String.ofList cs)) cs
  | keyword (k : Keyword) : Spells (.keyword k) k.text.toList
  | mark (m : Mark) : Spells (.mark m) m.text.toList

/-- Nothing comes next, or a blank. -/
def Separates (rest : List Char) : Prop := ∀ c ∈ rest.head?, IsBlank c

section

variable {c d : Char} {cs w rest : List Char} {p : Char → Bool}

/-! ### Kinds of characters -/

theorem isIdentPart_of_isDigit (h : c.isDigit = true) : isIdentPart c = true := by
  simp [isIdentPart, Char.isAlphanum, h]

theorem isDigit_of_isIdentStart (h : isIdentStart c = true) : c.isDigit = false := by
  simp only [isIdentStart, Char.isAlpha, Char.isUpper, Char.isLower, Bool.or_eq_true,
    Bool.and_eq_true, decide_eq_true_eq] at h
  rw [Bool.eq_false_iff]
  simp only [Char.isDigit, ne_eq, Bool.and_eq_true, decide_eq_true_eq, not_and]
  rcases h with (h | h) | rfl
  · exact fun _ hle => absurd (UInt32.le_trans h.1 hle) (by decide)
  · exact fun _ hle => absurd (UInt32.le_trans h.1 hle) (by decide)
  · decide

theorem mark?_of_isIdentPart (h : isIdentPart c = true) : mark? c = none := by
  unfold mark?
  split <;> first | rfl | exact absurd h (by decide)

theorem not_isQuote_of_isIdentPart (h : isIdentPart c = true) : ¬IsQuote c := by
  rintro (rfl | rfl) <;> exact absurd h (by decide)

theorem ne_backQuote_of_isIdentPart (h : isIdentPart c = true) : c ≠ '\x60' := by
  rintro rfl
  exact absurd h (by decide)

theorem not_isBlank_of_isIdentPart (h : isIdentPart c = true) : ¬IsBlank c := by
  rintro (rfl | rfl | rfl | rfl) <;> exact absurd h (by decide)

theorem mark?_of_isQuote (h : IsQuote c) : mark? c = none := by
  rcases h with rfl | rfl <;> rfl

theorem text_of_mark? {m : Mark} (h : mark? c = some m) : m.text.toList = [c] := by
  unfold mark? at h
  split at h <;> cases h <;> rfl

theorem isQuote_iff : (decide (c = '"') || decide (c = '\'')) = true ↔ IsQuote c := by
  simp [IsQuote]

/-! ### Runs of characters -/

theorem takeWhile_append_stop (hw : ∀ c ∈ w, p c = true) (hrest : ∀ c ∈ rest.head?, p c = false) :
    (w ++ rest).takeWhile p = w := by
  rw [List.takeWhile_append_of_pos hw]
  cases rest with
  | nil => exact List.append_nil w
  | cons c rest => rw [List.takeWhile_cons_of_neg (by simp [hrest c rfl]), List.append_nil]

theorem dropWhile_append_stop (hw : ∀ c ∈ w, p c = true) (hrest : ∀ c ∈ rest.head?, p c = false) :
    (w ++ rest).dropWhile p = rest := by
  rw [List.dropWhile_append_of_pos hw]
  cases rest with
  | nil => rfl
  | cons c rest => rw [List.dropWhile_cons_of_neg (by simp [hrest c rfl])]

theorem Separates.stop (h : Separates rest) (hp : ∀ c, IsBlank c → p c = false) :
    ∀ c ∈ rest.head?, p c = false := fun c hc => hp c (h c hc)

theorem not_isIdentPart_of_isBlank (c : Char) (h : IsBlank c) : isIdentPart c = false := by
  rcases h with rfl | rfl | rfl | rfl <;> decide

theorem not_isDigit_of_isBlank (c : Char) (h : IsBlank c) : c.isDigit = false := by
  rcases h with rfl | rfl | rfl | rfl <;> decide

theorem isDigits_takeWhile (h : d.isDigit = true) (cs : List Char) :
    IsDigits (d :: cs.takeWhile Char.isDigit) :=
  ⟨List.cons_ne_nil _ _, List.forall_mem_cons.2 ⟨h, fun _ hc => List.mem_takeWhile_imp hc⟩⟩

theorem IsDigits.width_eq (h : IsDigits cs) : width cs = cs.length :=
  width_eq_length fun c hc => utf8Size_of_isDigit (h.2 c hc)

theorem IsIdent.isIdentPart (h : IsIdent cs) : ∀ c ∈ cs, isIdentPart c = true := by
  cases cs with
  | nil => exact h.elim
  | cons c cs => exact List.forall_mem_cons.2 ⟨isIdentPart_of_isIdentStart h.1, h.2⟩

theorem isIdent_keyword (k : Keyword) : IsIdent k.text.toList := by
  cases k <;> simp [IsIdent, Keyword.text] <;> decide

end

/-! ### What scanners pass -/

section

variable {c d : Char} {cs ds digits fraction markup read w rest : List Char} {start pos stop : Nat}
  {t : Token} {m : Mark} {value : String}

theorem exists_of_scanText (h : scanText start pos read cs = .ok (value, stop, rest)) :
    ∃ markup, '\x60' ∉ markup ∧ cs = markup ++ '\x60' :: rest ∧
      value = String.ofList (read.reverse ++ markup) := by
  fun_induction scanText start pos read cs with
  | case1 => cases h
  | case2 =>
    cases h
    exact ⟨[], List.not_mem_nil, rfl, by rw [List.append_nil]⟩
  | case3 _ _ c cs hc ih =>
    obtain ⟨markup, hmarkup, rfl, hvalue⟩ := ih h
    refine ⟨c :: markup, List.not_mem_cons_of_ne_of_not_mem (Ne.symm hc) hmarkup, rfl, ?_⟩
    rw [hvalue, List.reverse_cons, List.append_assoc, List.singleton_append]

theorem scanText_append (h : '\x60' ∉ markup) :
    scanText start pos read (markup ++ '\x60' :: rest) =
      .ok (String.ofList (read.reverse ++ markup), pos + width markup + 1, rest) := by
  induction markup generalizing pos read with
  | nil => simp [scanText]
  | cons c markup ih =>
    obtain ⟨hc, h⟩ := not_or.1 (mt List.mem_cons.2 h)
    rw [List.cons_append, scanText, if_neg (Ne.symm hc), ih h, List.reverse_cons, List.append_assoc,
      List.singleton_append, width_cons, Nat.add_assoc pos]

theorem scanFraction_of_separates (h : Separates rest) : scanFraction rest = ([], rest) := by
  unfold scanFraction
  split
  · rcases h '.' rfl with h | h | h | h <;> cases h
  · rfl

theorem scanNumber_whole (hdigits : IsDigits (d :: ds)) (hrest : Separates rest) :
    scanNumber pos d (ds ++ rest) =
      (.number (Decimal.ofParts (d :: ds) []).toNumber, pos + width (d :: ds), rest) := by
  have hds : ∀ c ∈ ds, c.isDigit = true := (List.forall_mem_cons.1 hdigits.2).2
  have hstop := hrest.stop not_isDigit_of_isBlank
  simp only [scanNumber, takeWhile_append_stop hds hstop, dropWhile_append_stop hds hstop,
    scanFraction_of_separates hrest, hdigits.width_eq]
  rfl

theorem scanNumber_decimal (hdigits : IsDigits (d :: ds)) (hfraction : IsDigits fraction)
    (hrest : Separates rest) : scanNumber pos d (ds ++ '.' :: (fraction ++ rest)) =
      (.number (Decimal.ofParts (d :: ds) fraction).toNumber,
        pos + width (d :: ds ++ '.' :: fraction), rest) := by
  have hds : ∀ c ∈ ds, c.isDigit = true := (List.forall_mem_cons.1 hdigits.2).2
  have hpoint : ∀ c ∈ ('.' :: (fraction ++ rest)).head?, c.isDigit = false := by
    rintro c ⟨⟩
    decide
  have hstop := hrest.stop not_isDigit_of_isBlank
  obtain ⟨f, fs, rfl⟩ := List.exists_cons_of_ne_nil hfraction.1
  obtain ⟨hf, hfs⟩ := List.forall_mem_cons.1 hfraction.2
  have hscan : scanFraction ('.' :: (f :: fs ++ rest)) = (f :: fs, rest) := by
    rw [List.cons_append, scanFraction, if_pos hf, takeWhile_append_stop hfs hstop,
      dropWhile_append_stop hfs hstop]
  have hwidth : width (d :: ds ++ '.' :: f :: fs) = (d :: ds).length + (1 + (f :: fs).length) := by
    rw [width_append, width_cons '.', hdigits.width_eq, hfraction.width_eq]
    rfl
  simp only [scanNumber, takeWhile_append_stop hds hpoint, dropWhile_append_stop hds hpoint, hscan,
    hwidth]
  rfl

/-- What is scanned as a number is digits, with a point and digits behind them or not. -/
theorem exists_spells_of_scanNumber (hd : d.isDigit = true)
    (h : scanNumber pos d cs = (t, stop, rest)) : ∃ w, d :: cs = w ++ rest ∧ Spells t w := by
  have hcs : cs = cs.takeWhile Char.isDigit ++ cs.dropWhile Char.isDigit :=
    List.takeWhile_append_dropWhile.symm
  have hdigits := isDigits_takeWhile hd cs
  simp only [scanNumber] at h
  unfold scanFraction at h
  split at h
  · rename_i f more hmore
    split at h
    · rename_i hf
      cases h
      refine ⟨_, ?_, .decimal hdigits (isDigits_takeWhile hf more)⟩
      conv_lhs => rw [hcs, hmore]
      simp [List.takeWhile_append_dropWhile]
    · cases h
      exact ⟨_, by rw [List.cons_append, ← hmore, ← hcs], .whole hdigits⟩
  · cases h
    exact ⟨_, by rw [List.cons_append, ← hcs], .whole hdigits⟩

theorem ofText?_keyword (k : Keyword) : Keyword.ofText? k.text = some k := by
  cases k <;> decide

theorem ofText?_of_forall {word : String} (h : ∀ k : Keyword, k.text ≠ word) :
    Keyword.ofText? word = none :=
  List.find?_eq_none.2 fun k _ => by simpa using h k

theorem scanWord_append (hword : IsIdent (c :: cs)) (hrest : Separates rest) :
    scanWord pos c (cs ++ rest) =
      (((Keyword.ofText? (String.ofList (c :: cs))).map Token.keyword).getD
        (.ident (String.ofList (c :: cs))), pos + width (c :: cs), rest) := by
  have hstop := hrest.stop not_isIdentPart_of_isBlank
  have hwidth := width_eq_length fun d hd => utf8Size_of_isIdentPart (hword.isIdentPart d hd)
  simp only [scanWord, takeWhile_append_stop hword.2 hstop, dropWhile_append_stop hword.2 hstop,
    hwidth]

/-- What is scanned as a word is a keyword or the word. -/
theorem exists_spells_of_scanWord (hc : isIdentStart c = true)
    (h : scanWord pos c cs = (t, stop, rest)) : ∃ w, c :: cs = w ++ rest ∧ Spells t w := by
  have hword : IsIdent (c :: cs.takeWhile isIdentPart) :=
    ⟨hc, fun _ hd => List.mem_takeWhile_imp hd⟩
  have hcs : c :: cs = (c :: cs.takeWhile isIdentPart) ++ cs.dropWhile isIdentPart := by
    rw [List.cons_append, List.takeWhile_append_dropWhile]
  simp only [scanWord] at h
  cases hk : Keyword.ofText? (String.ofList (c :: cs.takeWhile isIdentPart)) with
  | some k =>
    rw [hk] at h
    cases h
    have htext : k.text = String.ofList (c :: cs.takeWhile isIdentPart) := by
      simpa using List.find?_some hk
    refine ⟨k.text.toList, ?_, .keyword k⟩
    rw [htext, String.toList_ofList]
    exact hcs
  | none =>
    rw [hk] at h
    cases h
    refine ⟨_, hcs, .ident hword fun k => ?_⟩
    have hall : k ∈ Keyword.all := by cases k <;> decide
    simpa using List.find?_eq_none.1 hk k hall

theorem exists_spells_of_scanMark (hm : mark? c = some m)
    (h : scanMark pos m cs = (t, stop, rest)) : ∃ w, c :: cs = w ++ rest ∧ Spells t w := by
  have hc := text_of_mark? hm
  unfold scanMark at h
  split at h
  · cases h
    refine ⟨_, ?_, .mark .arrow⟩
    obtain rfl : c = '-' := by simpa [Mark.text] using hc.symm
    rfl
  · cases h
    exact ⟨_, by rw [hc]; rfl, .mark m⟩

/-- What is scanned as a token is a way to write it. -/
theorem exists_spells_of_scanToken (h : scanToken pos c cs = .ok (t, stop, rest)) :
    ∃ w, c :: cs = w ++ rest ∧ Spells t w := by
  unfold scanToken at h
  split at h
  · rename_i m hm
    exact exists_spells_of_scanMark hm (Except.ok.inj h)
  split at h
  · rename_i hquote
    obtain ⟨⟨value, stop, rest⟩, hscan, heq⟩ := map_eq_ok.1 h
    cases heq
    obtain ⟨s, w, hw, rfl, rfl⟩ := exists_spellsChars_of_scanString hscan
    exact ⟨_, by simp, .string (isQuote_iff.1 hquote) hw⟩
  split at h
  · rename_i hc
    subst hc
    obtain ⟨⟨value, stop, rest⟩, hscan, heq⟩ := map_eq_ok.1 h
    cases heq
    obtain ⟨markup, hmarkup, rfl, rfl⟩ := exists_of_scanText hscan
    exact ⟨_, by simp, .text hmarkup⟩
  split at h
  · rename_i hd
    exact exists_spells_of_scanNumber hd (Except.ok.inj h)
  split at h
  · rename_i hstart
    exact exists_spells_of_scanWord hstart (Except.ok.inj h)
  · cases h

/-! ### What is written is scanned -/

theorem scanToken_mark (h : mark? c = some m) : scanToken pos c cs = .ok (scanMark pos m cs) := by
  simp only [scanToken, h]

theorem scanToken_quote (h : IsQuote c) : scanToken pos c cs =
    (scanString c pos (pos + 1) [] cs).map fun (value, after) => (.string value, after) := by
  simp only [scanToken, mark?_of_isQuote h, if_pos (isQuote_iff.2 h)]

theorem scanToken_backQuote : scanToken pos '\x60' cs =
    (scanText pos (pos + 1) [] cs).map fun (markup, after) => (.text markup, after) := rfl

theorem scanToken_digit (h : c.isDigit = true) :
    scanToken pos c cs = .ok (scanNumber pos c cs) := by
  have hpart := isIdentPart_of_isDigit h
  have hquote := mt isQuote_iff.1 (not_isQuote_of_isIdentPart hpart)
  simp only [scanToken, mark?_of_isIdentPart hpart, if_neg hquote,
    if_neg (ne_backQuote_of_isIdentPart hpart), if_pos h]

theorem scanToken_word (h : isIdentStart c = true) :
    scanToken pos c cs = .ok (scanWord pos c cs) := by
  have hpart := isIdentPart_of_isIdentStart h
  have hquote := mt isQuote_iff.1 (not_isQuote_of_isIdentPart hpart)
  simp only [scanToken, mark?_of_isIdentPart hpart, if_neg hquote,
    if_neg (ne_backQuote_of_isIdentPart hpart), isDigit_of_isIdentStart h, Bool.false_eq_true,
    if_false, if_pos h]

theorem scanMark_of_separates (hrest : Separates rest) :
    scanMark pos m rest = (.mark m, pos + 1, rest) := by
  unfold scanMark
  split
  · rcases hrest '>' rfl with h | h | h | h <;> cases h
  · rfl

/-- Each way to write a token is scanned as the token, where nothing or a blank comes behind it. -/
theorem scanToken_spells (pos : Nat) (h : Spells t w) (hrest : Separates rest) :
    ∃ c cs, w = c :: cs ∧ scanToken pos c (cs ++ rest) = .ok (t, pos + width w, rest) := by
  cases h with
  | whole hdigits =>
    obtain ⟨d, ds, rfl⟩ := List.exists_cons_of_ne_nil hdigits.1
    refine ⟨d, ds, rfl, ?_⟩
    rw [scanToken_digit (hdigits.2 d List.mem_cons_self), scanNumber_whole hdigits hrest]
  | @decimal digits fraction hdigits hfraction =>
    obtain ⟨d, ds, rfl⟩ := List.exists_cons_of_ne_nil hdigits.1
    refine ⟨d, ds ++ '.' :: fraction, rfl, ?_⟩
    rw [scanToken_digit (hdigits.2 d List.mem_cons_self), List.append_assoc, List.cons_append,
      scanNumber_decimal hdigits hfraction hrest]
  | @string quote s w hquote hw =>
    refine ⟨quote, w ++ [quote], rfl, ?_⟩
    rw [scanToken_quote hquote, List.append_assoc, List.singleton_append,
      scanString_append hquote hw]
    simp only [Except.map, List.reverse_nil, List.nil_append, width_cons, width_append, width_nil,
      hquote.utf8Size]
    congr 3
    omega
  | @text markup hmarkup =>
    refine ⟨'\x60', markup ++ ['\x60'], rfl, ?_⟩
    have hsize : '\x60'.utf8Size = 1 := rfl
    rw [scanToken_backQuote, List.append_assoc, List.singleton_append, scanText_append hmarkup]
    simp only [Except.map, List.reverse_nil, List.nil_append, width_cons, width_append, width_nil,
      hsize]
    congr 3
    omega
  | ident hword hname =>
    cases w with
    | nil => exact hword.elim
    | cons c cs =>
      refine ⟨c, cs, rfl, ?_⟩
      rw [scanToken_word hword.1, scanWord_append hword hrest, ofText?_of_forall hname]
      rfl
  | keyword k =>
    have hword := isIdent_keyword k
    cases hk : k.text.toList with
    | nil => exact (hk ▸ hword).elim
    | cons c cs =>
      rw [hk] at hword
      refine ⟨c, cs, rfl, ?_⟩
      rw [scanToken_word hword.1, scanWord_append hword hrest, ← hk, String.ofList_toList,
        ofText?_keyword]
      rfl
  | mark m =>
    cases m with
    | arrow => exact ⟨'-', ['>'], rfl, rfl⟩
    | _ =>
      refine ⟨_, [], rfl, ?_⟩
      rw [scanToken_mark rfl, List.nil_append, scanMark_of_separates hrest]
      rfl

/-- No layout begins as a token is written. -/
theorem Spells.first (h : Spells t w) : ∃ c cs, w = c :: cs ∧ ¬IsBlank c ∧ (c = '/' → cs = []) := by
  have hpart {c : Char} {cs : List Char} (hc : isIdentPart c = true) :
      ¬IsBlank c ∧ (c = '/' → cs = []) :=
    ⟨not_isBlank_of_isIdentPart hc, by rintro rfl; exact absurd hc (by decide)⟩
  have hdigits {ds : List Char} (cs : List Char) (hds : IsDigits ds) :
      ∃ c more, ds ++ cs = c :: more ∧ ¬IsBlank c ∧ (c = '/' → more = []) := by
    obtain ⟨d, ds, rfl⟩ := List.exists_cons_of_ne_nil hds.1
    exact ⟨d, ds ++ cs, rfl, hpart (isIdentPart_of_isDigit (hds.2 d List.mem_cons_self))⟩
  have hword {cs : List Char} (hcs : IsIdent cs) :
      ∃ c more, cs = c :: more ∧ ¬IsBlank c ∧ (c = '/' → more = []) := by
    cases cs with
    | nil => exact hcs.elim
    | cons c cs => exact ⟨c, cs, rfl, hpart (isIdentPart_of_isIdentStart hcs.1)⟩
  cases h with
  | whole hds =>
    obtain ⟨c, more, hw, h⟩ := hdigits [] hds
    exact ⟨c, more, by rwa [List.append_nil] at hw, h⟩
  | decimal hds => exact hdigits _ hds
  | string hquote => rcases hquote with rfl | rfl <;> exact ⟨_, _, rfl, by decide, nofun⟩
  | text => exact ⟨_, _, rfl, by decide, nofun⟩
  | ident hcs => exact hword hcs
  | keyword k => exact hword (isIdent_keyword k)
  | mark m => cases m <;> exact ⟨_, _, rfl, by decide, by decide⟩

theorem skipLayout_stop (hblank : ¬IsBlank c) (hcomment : c = '/' → cs.head? ≠ some '/') :
    skipLayout false pos (c :: cs) = (pos, c :: cs) := by
  rw [skipLayout]
  · refine if_neg fun h => hblank ?_
    simpa [IsBlank, or_assoc] using h
  · rintro ds rfl rfl
    exact hcomment rfl rfl

theorem skipLayout_spells (h : Spells t w) (hrest : Separates rest) :
    skipLayout false pos (w ++ rest) = (pos, w ++ rest) := by
  obtain ⟨c, cs, rfl, hblank, hslash⟩ := h.first
  refine skipLayout_stop hblank fun hc hhead => ?_
  rw [hslash hc] at hhead
  rcases hrest '/' hhead with h | h | h | h <;> cases h

/-! ### Token by token -/

variable {tokens : List SpannedToken}

theorem tokensFrom_end (h : skipLayout false pos cs = (stop, [])) :
    tokensFrom pos cs tokens = .ok (⟨.endOfInput, ⟨stop, stop⟩⟩ :: tokens).reverse := by
  rw [tokensFrom]
  split
  · rename_i heq
    cases h.symm.trans heq
    rfl
  · rename_i heq
    cases h.symm.trans heq

theorem tokensFrom_token (h : skipLayout false pos cs = (start, c :: ds))
    (ht : scanToken start c ds = .ok (t, stop, rest)) :
    tokensFrom pos cs tokens = tokensFrom stop rest (⟨t, ⟨start, stop⟩⟩ :: tokens) := by
  rw [tokensFrom]
  split
  · rename_i heq
    cases h.symm.trans heq
  · rename_i heq
    cases h.symm.trans heq
    split
    · rename_i hscan
      cases ht.symm.trans hscan
    · rename_i hscan
      cases ht.symm.trans hscan
      rfl

theorem tokensFrom_error {e : CompileError} (h : skipLayout false pos cs = (start, c :: ds))
    (ht : scanToken start c ds = .error e) : tokensFrom pos cs tokens = .error e := by
  rw [tokensFrom]
  split
  · rename_i heq
    cases h.symm.trans heq
  · rename_i heq
    cases h.symm.trans heq
    split
    · rename_i hscan
      cases ht.symm.trans hscan
      rfl
    · rename_i hscan
      cases ht.symm.trans hscan

/-- Tokens are the same from places between which there is layout. -/
theorem tokensFrom_eq_of_skipLayout {pos' : Nat} {cs' : List Char}
    (h : skipLayout false pos cs = skipLayout false pos' cs') :
    tokensFrom pos cs tokens = tokensFrom pos' cs' tokens := by
  cases hskip : skipLayout false pos' cs' with
  | mk start after =>
    rw [hskip] at h
    cases after with
    | nil => rw [tokensFrom_end h, tokensFrom_end hskip]
    | cons c ds =>
      cases hscan : scanToken start c ds with
      | error e => rw [tokensFrom_error h hscan, tokensFrom_error hskip hscan]
      | ok r => rw [tokensFrom_token h hscan, tokensFrom_token hskip hscan]

theorem tokensFrom_layout {last : Bool} {gap : List Char} (hgap : Layout last gap)
    (hlast : last = true → cs = []) :
    tokensFrom pos (gap ++ cs) tokens = tokensFrom (pos + width gap) cs tokens :=
  tokensFrom_eq_of_skipLayout (skipLayout_append hgap hlast)

theorem tokensFrom_spells (h : Spells t w) (hrest : Separates rest) :
    tokensFrom pos (w ++ rest) tokens =
      tokensFrom (pos + width w) rest (⟨t, ⟨pos, pos + width w⟩⟩ :: tokens) := by
  obtain ⟨c, cs, rfl, hscan⟩ := scanToken_spells pos h hrest
  exact tokensFrom_token (skipLayout_spells h hrest) hscan

end

end EventScript.Lexer
