import EventScript.Proofs.Token.Spelling

/-!
Writing tokens down. All tokens but the end of input can be written, numbers as far as digits denote
them and words as far as they are none of the language, and in whichever way tokens are written one
behind the other, with a blank and any layout between them, they are read again as they were.
-/
namespace EventScript

open Lexer

/-- There is a way to write the token. -/
def Token.Writable : Token → Prop
  | .number n => ∃ digits fraction, IsDigits digits ∧ (fraction = [] ∨ IsDigits fraction) ∧
      n = (Decimal.ofParts digits fraction).toNumber
  | .text markup => '\x60' ∉ markup.toList
  | .ident name => IsIdent name.toList ∧ ∀ k : Keyword, k.text ≠ name
  | .string _ | .keyword _ | .mark _ => True
  | .endOfInput => False

/-- A way to write tokens one behind the other: each in any way, then a blank and any layout. -/
inductive Writes : List Token → List Char → Prop where
  | none : Writes [] []
  | last {t : Token} {w : List Char} (hw : Spells t w) : Writes [t] w
  | more {t u : Token} {ts : List Token} {w gap cs : List Char} {c : Char} (hw : Spells t w)
    (hc : IsBlank c) (hgap : Layout false gap) (rest : Writes (u :: ts) cs) :
    Writes (t :: u :: ts) (w ++ c :: (gap ++ cs))

section

variable {t : Token} {ts : List Token} {cs : List Char}

theorem Lexer.Spells.writable {w : List Char} (h : Spells t w) : t.Writable := by
  cases h with
  | whole hdigits => exact ⟨_, [], hdigits, .inl rfl, rfl⟩
  | decimal hdigits hfraction => exact ⟨_, _, hdigits, .inr hfraction, rfl⟩
  | text h => simpa [Token.Writable] using h
  | ident hword hname => exact ⟨by simpa using hword, hname⟩
  | string | keyword | mark => trivial

theorem Token.Writable.exists_spells (h : t.Writable) : ∃ w, Spells t w := by
  cases t with
  | number n =>
    obtain ⟨digits, fraction, hdigits, rfl | hfraction, rfl⟩ := h
    · exact ⟨_, .whole hdigits⟩
    · exact ⟨_, .decimal hdigits hfraction⟩
  | string s =>
    obtain ⟨w, hw⟩ := exists_spellsChars (.inl rfl : IsQuote '"') s.toList
    have h := Spells.string (.inl rfl) hw
    rw [String.ofList_toList] at h
    exact ⟨_, h⟩
  | text markup =>
    have h := Spells.text h
    rw [String.ofList_toList] at h
    exact ⟨_, h⟩
  | ident name =>
    have h := Spells.ident h.1 (by simpa using h.2)
    rw [String.ofList_toList] at h
    exact ⟨_, h⟩
  | keyword k => exact ⟨_, .keyword k⟩
  | mark m => exact ⟨_, .mark m⟩
  | endOfInput => exact h.elim

theorem exists_writes_iff : (∃ cs, Writes ts cs) ↔ ∀ t ∈ ts, t.Writable := by
  constructor
  · rintro ⟨cs, h⟩
    induction h with
    | none => exact fun _ h => nomatch h
    | last hw => exact List.forall_mem_singleton.2 hw.writable
    | more hw _ _ _ ih => exact List.forall_mem_cons.2 ⟨hw.writable, ih⟩
  · intro h
    induction ts with
    | nil => exact ⟨[], .none⟩
    | cons t ts ih =>
      obtain ⟨ht, hts⟩ := List.forall_mem_cons.1 h
      obtain ⟨w, hw⟩ := ht.exists_spells
      obtain ⟨cs, hcs⟩ := ih hts
      cases ts with
      | nil => exact ⟨w, .last hw⟩
      | cons u ts => exact ⟨_, .more hw (c := ' ') (.inl rfl) .done hcs⟩

/-- Tokens are read again in whichever way they are written, behind those that have been read. -/
theorem Writes.tokensFrom (h : Writes ts cs) (pos : Nat) (read : List SpannedToken) :
    ∃ tokens, tokensFrom pos cs read = .ok (read.reverse ++ tokens) ∧
      tokens.map (·.token) = ts ++ [.endOfInput] := by
  have hend {pos : Nat} {read : List SpannedToken} :
      Lexer.tokensFrom pos [] read = .ok (read.reverse ++ [⟨.endOfInput, ⟨pos, pos⟩⟩]) := by
    rw [tokensFrom_end rfl, List.reverse_cons]
  have hnext {t : Token} {pos stop : Nat} {read tokens : List SpannedToken} :
      (⟨t, ⟨pos, stop⟩⟩ :: read).reverse ++ tokens =
        read.reverse ++ ⟨t, ⟨pos, stop⟩⟩ :: tokens := by
    rw [List.reverse_cons, List.append_assoc, List.singleton_append]
  induction h generalizing pos read with
  | none => exact ⟨_, hend, rfl⟩
  | @last t w hw =>
    have hread : Lexer.tokensFrom pos (w ++ []) read = _ := tokensFrom_spells hw nofun
    rw [List.append_nil, hend, hnext] at hread
    exact ⟨_, hread, rfl⟩
  | @more t u ts w gap cs c hw hc hgap _ ih =>
    have hblank : Layout false (c :: gap) := .blank hc hgap
    have hsep : Separates (c :: gap ++ cs) := by
      rintro d ⟨⟩
      exact hc
    obtain ⟨tokens, hread, htokens⟩ := ih (pos + width w + width (c :: gap))
      (⟨t, ⟨pos, pos + width w⟩⟩ :: read)
    refine ⟨⟨t, ⟨pos, pos + width w⟩⟩ :: tokens, ?_, by rw [List.map_cons, htokens]; rfl⟩
    rw [← List.cons_append, tokensFrom_spells hw hsep, tokensFrom_layout hblank nofun, hread, hnext]

/-- All tokens that can be written at all can be written down together, and are read again. -/
theorem lex_writes (ts : List Token) : ((∃ cs, Writes ts cs) ↔ ∀ t ∈ ts, t.Writable) ∧
    ∀ cs, Writes ts cs → ∃ tokens, lex (String.ofList cs) = .ok tokens ∧
      tokens.map (·.token) = ts ++ [.endOfInput] := by
  refine ⟨exists_writes_iff, fun cs h => ?_⟩
  rw [lex, String.toList_ofList]
  exact h.tokensFrom 0 []

/-- A comment that holds a quote, marks that begin alike, and a string that looks like a comment. -/
theorem lex_writes_marks : ∃ cs, cs = "- //'\n\t-> '//\\''".toList ∧
    Writes [.mark .minus, .mark .arrow, .string "//'"] cs ∧
    ∃ tokens, lex (String.ofList cs) = .ok tokens ∧
      tokens.map (·.token) = [.mark .minus, .mark .arrow, .string "//'", .endOfInput] := by
  have hstring : Spells (.string "//'") "'//\\''".toList :=
    .string (.inr rfl) (.cons (.plain (by decide) (by decide) (by decide)) (.cons
      (.plain (by decide) (by decide) (by decide)) (.cons (.escape (by decide)) .nil)))
  have hgap : Layout false "//'\n\t".toList :=
    .comment (show '\n' ∉ ['\''] by decide) (.blank (.inr (.inl rfl)) .done)
  have h : Writes [.mark .minus, .mark .arrow, .string "//'"] "- //'\n\t-> '//\\''".toList :=
    .more (.mark .minus) (c := ' ') (.inl rfl) hgap
      (.more (.mark .arrow) (c := ' ') (.inl rfl) .done (.last hstring))
  exact ⟨_, rfl, h, (lex_writes _).2 _ h⟩

end

end EventScript
