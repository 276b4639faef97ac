import EventScript.Decimal.Reading
import EventScript.Diagnostic
import EventScript.Token

/-!
Reading tokens from text. Blanks and comments separate tokens; each scanner answers the token, the
byte after it and the characters left, which are fewer than it was given.
-/
namespace EventScript.Lexer

/-- Passes over blanks and comments; a comment runs to the end of its line. -/
def skipLayout : (inComment : Bool) → (pos : Nat) → List Char → Nat × List Char
  | _, pos, [] => (pos, [])
  | true, pos, c :: cs => skipLayout (c != '\n') (pos + c.utf8Size) cs
  | false, pos, '/' :: '/' :: cs => skipLayout true (pos + 2) cs
  | false, pos, c :: cs =>
    if c = ' ' || c = '\t' || c = '\n' || c = '\r' then skipLayout false (pos + 1) cs
    else (pos, c :: cs)

theorem length_skipLayout_le (inComment : Bool) (pos : Nat) (cs : List Char) :
    (skipLayout inComment pos cs).2.length ≤ cs.length := by
  fun_induction skipLayout inComment pos cs <;> simp_all <;> omega

/-- The character an escape stands for. -/
def escaped? (c : Char) : Option Char :=
  match c with
  | 'n' => some '\n'
  | 't' => some '\t'
  | '\\' => some '\\'
  | '"' => some '"'
  | '\'' => some '\''
  | _ => none

/-- The rest of a string literal that began at `start`, up to its quote. What has been read so far
is kept backwards. A string ends on its line. -/
def scanString (quote : Char) (start : Nat) :
    (pos : Nat) → (read : List Char) → List Char → Compiled (String × Nat × List Char)
  | pos, _, [] => refuse .unterminatedString ⟨start, pos⟩
  | pos, read, c :: cs =>
    if c = '\n' then refuse .unterminatedString ⟨start, pos⟩
    else if c = quote then .ok (String.ofList read.reverse, pos + 1, cs)
    else if c = '\\' then
      match cs with
      | [] => refuse .invalidEscape ⟨pos, pos + 1⟩
      | e :: cs =>
        match escaped? e with
        | some value => scanString quote start (pos + 2) (value :: read) cs
        | none => refuse .invalidEscape ⟨pos, pos + 2⟩
    else scanString quote start (pos + c.utf8Size) (c :: read) cs

theorem length_scanString_lt {quote : Char} {start pos : Nat} {read cs : List Char} {s : String}
    {stop : Nat} {rest : List Char} (h : scanString quote start pos read cs = .ok (s, stop, rest)) :
    rest.length < cs.length := by
  fun_induction scanString quote start pos read cs <;> simp_all [refuse] <;> omega

/-- The rest of a text literal that began at `start`, up to its back quote. -/
def scanText (start : Nat) :
    (pos : Nat) → (read : List Char) → List Char → Compiled (String × Nat × List Char)
  | pos, _, [] => refuse .unterminatedText ⟨start, pos⟩
  | pos, read, c :: cs =>
    if c = '\x60' then .ok (String.ofList read.reverse, pos + 1, cs)
    else scanText start (pos + c.utf8Size) (c :: read) cs

theorem length_scanText_lt {start pos : Nat} {read cs : List Char} {s : String} {stop : Nat}
    {rest : List Char} (h : scanText start pos read cs = .ok (s, stop, rest)) :
    rest.length < cs.length := by
  fun_induction scanText start pos read cs <;> simp_all [refuse]
  omega

def isIdentStart (c : Char) : Bool := c.isAlpha || c = '_'

def isIdentPart (c : Char) : Bool := c.isAlphanum || c = '_'

/-- The digits of a fraction, if a point and a digit come next. -/
def scanFraction : List Char → List Char × List Char
  | '.' :: d :: cs =>
    if d.isDigit then (d :: cs.takeWhile Char.isDigit, cs.dropWhile Char.isDigit)
    else ([], '.' :: d :: cs)
  | cs => ([], cs)

/-- A number that begins with the digit `d`. -/
def scanNumber (pos : Nat) (d : Char) (cs : List Char) : Token × Nat × List Char :=
  let whole := d :: cs.takeWhile Char.isDigit
  let (fraction, rest) := scanFraction (cs.dropWhile Char.isDigit)
  let length := whole.length + (if fraction.isEmpty then 0 else 1 + fraction.length)
  (.number (Decimal.ofParts whole fraction).toNumber, pos + length, rest)

/-- A word that begins with the character `c`. -/
def scanWord (pos : Nat) (c : Char) (cs : List Char) : Token × Nat × List Char :=
  let word := c :: cs.takeWhile isIdentPart
  let name := String.ofList word
  (((Keyword.ofText? name).map Token.keyword).getD (.ident name), pos + word.length,
    cs.dropWhile isIdentPart)

/-- The mark that a character is by itself. -/
def mark? (c : Char) : Option Mark :=
  match c with
  | '(' => some .openParen
  | ')' => some .closeParen
  | '\x7b' => some .openBrace
  | '\x7d' => some .closeBrace
  | ',' => some .comma
  | '=' => some .equals
  | '+' => some .plus
  | '-' => some .minus
  | '*' => some .star
  | '/' => some .slash
  | _ => none

/-- A mark, which with the next character may be an arrow. -/
def scanMark (pos : Nat) (m : Mark) (cs : List Char) : Token × Nat × List Char :=
  match m, cs with
  | .minus, '>' :: cs => (.mark .arrow, pos + 2, cs)
  | m, cs => (.mark m, pos + 1, cs)

/-- The token that begins with the character `c`. -/
def scanToken (pos : Nat) (c : Char) (cs : List Char) : Compiled (Token × Nat × List Char) :=
  match mark? c with
  | some m => .ok (scanMark pos m cs)
  | none =>
    if c = '"' || c = '\'' then
      (scanString c pos (pos + 1) [] cs).map fun (value, after) => (.string value, after)
    else if c = '\x60' then
      (scanText pos (pos + 1) [] cs).map fun (markup, after) => (.text markup, after)
    else if c.isDigit then .ok (scanNumber pos c cs)
    else if isIdentStart c then .ok (scanWord pos c cs)
    else refuse (.unexpectedCharacter c) ⟨pos, pos + c.utf8Size⟩

theorem length_dropWhile_le (p : Char → Bool) (cs : List Char) :
    (cs.dropWhile p).length ≤ cs.length :=
  (List.dropWhile_suffix p).length_le

theorem length_scanFraction_le (cs : List Char) : (scanFraction cs).2.length ≤ cs.length := by
  unfold scanFraction
  split
  · split
    · have := length_dropWhile_le Char.isDigit
      grind
    · simp
  · simp

theorem length_scanMark_le (pos : Nat) (m : Mark) (cs : List Char) :
    (scanMark pos m cs).2.2.length ≤ cs.length := by
  unfold scanMark
  split <;> simp

theorem length_scanNumber_le (pos : Nat) (d : Char) (cs : List Char) :
    (scanNumber pos d cs).2.2.length ≤ cs.length :=
  Nat.le_trans (length_scanFraction_le _) (length_dropWhile_le _ cs)

theorem length_scanWord_le (pos : Nat) (c : Char) (cs : List Char) :
    (scanWord pos c cs).2.2.length ≤ cs.length :=
  length_dropWhile_le _ cs

theorem length_scanToken_le {pos : Nat} {c : Char} {cs : List Char} {r : Token × Nat × List Char}
    (h : scanToken pos c cs = .ok r) : r.2.2.length ≤ cs.length := by
  unfold scanToken at h
  split at h
  · cases h; exact length_scanMark_le ..
  · split at h
    · cases hs : scanString c pos (pos + 1) [] cs with
      | error => simp [hs, Except.map] at h
      | ok r =>
        have := length_scanString_lt hs
        simp only [hs, Except.map, Except.ok.injEq] at h
        subst h; exact Nat.le_of_lt this
    · split at h
      · cases hs : scanText pos (pos + 1) [] cs with
        | error => simp [hs, Except.map] at h
        | ok r =>
          have := length_scanText_lt hs
          simp only [hs, Except.map, Except.ok.injEq] at h
          subst h; exact Nat.le_of_lt this
      · split at h
        · cases h; exact length_scanNumber_le ..
        · split at h
          · cases h; exact length_scanWord_le ..
          · simp [refuse] at h

/-- Tokens from `pos` on, after those already read, which are kept backwards. -/
def tokensFrom (pos : Nat) (cs : List Char) (read : List SpannedToken) :
    Compiled (List SpannedToken) :=
  match _skipped : skipLayout false pos cs with
  | (start, []) => .ok ((⟨.endOfInput, ⟨start, start⟩⟩ :: read).reverse)
  | (start, c :: rest) =>
    match _scanned : scanToken start c rest with
    | .error e => .error e
    | .ok (token, stop, rest) => tokensFrom stop rest (⟨token, ⟨start, stop⟩⟩ :: read)
termination_by cs.length
decreasing_by
  have hskip := length_skipLayout_le false pos cs
  have hscan := length_scanToken_le _scanned
  simp only [_skipped, List.length_cons] at hskip hscan
  omega

end EventScript.Lexer

namespace EventScript

/-- The tokens of a source text, the last of them `endOfInput`. -/
def lex (source : String) : Compiled (List SpannedToken) :=
  Lexer.tokensFrom 0 source.toList []

/-- The tokens of a source with a name, which errors then bear. -/
def tokenize (sourceName source : String) : Compiled (List SpannedToken) :=
  (lex source).mapError (·.inSource sourceName)

end EventScript
