import EventScript.Proofs.ParserTermination

/-!
What the parser refuses is the first token with which those before it do not go on as a schema.
-/
namespace EventScript

/-- Tokens that end are those passed before the end of input and those behind. -/
theorem Ended.eq_append {k : Nat} {ts : List SpannedToken} (h : Ended ts)
    (hinside : ∀ t ∈ firsts k ts, t.token ≠ .endOfInput) :
    ∃ rest, ts = firsts k ts ++ front (behind k ts) :: rest := by
  induction k generalizing ts with
  | zero =>
    cases h with
    | last span => exact ⟨[], rfl⟩
    | cons _ _ => exact ⟨_, rfl⟩
  | succ k ih =>
    cases h with
    | last span => exact absurd rfl (hinside _ List.mem_cons_self)
    | @cons t ts _ hts =>
      obtain ⟨rest, hrest⟩ := ih hts fun u hu => hinside u (by
        rw [firsts, pass_cons hts.ne_nil]
        exact List.mem_cons_of_mem _ hu)
      refine ⟨rest, ?_⟩
      rw [firsts, behind, pass_cons hts.ne_nil, List.cons_append, ← hrest]
      rfl

namespace Schema

variable {tokens : List SpannedToken} {w : List Token} {e : CompileError}

/-- What is refused on tokens that end has been looked at. -/
theorem fails_of_parse (hend : tokens.map (·.token) = w ++ [.endOfInput])
    (h : parse tokens = .error e) :
    Parser.Fails (Parser.schema (Parser.fuelFor tokens)) tokens e := by
  obtain ⟨r, hr⟩ := exists_parse?_of_not_unending (Unending.not_of_ended hend)
  rw [parse, hr] at h
  exact parse?_eq_error_iff.1 (hr.trans (congrArg some h))

/-- A complaint is about the first token with which there is nothing that can be read: those before
it can be gone on with, and what begins with them and with it is not read. -/
theorem parse_refuses_earliest (hend : tokens.map (·.token) = w ++ [.endOfInput])
    (honly : .endOfInput ∉ w) (h : parse tokens = .error e) :
    (e.kind = .parse ∨ e.kind = .typeName) ∧ ∃ read t rest, tokens = read ++ t :: rest ∧
      e.span = t.span ∧ (∃ more s, parse (read ++ more) = .ok s) ∧
        ∀ more s, parse (read ++ t :: more) ≠ .ok s := by
  obtain ⟨k, hk⟩ := (Parser.tellsAll_schema _ tokens).2 e (fails_of_parse hend h)
  obtain ⟨rest, hrest⟩ := (ended_of_map hend honly).eq_append hk.inside
  refine ⟨hk.kind, firsts k tokens, front (behind k tokens), rest, hrest, hk.span, ?_, ?_⟩
  · obtain ⟨x, d, hd⟩ := hk.goesOn
    obtain ⟨s, hs, -⟩ := @exists_parse_of_tokens
      (firsts k tokens ++ (x ++ [Token.endOfInput]).map (⟨·, .none⟩)) d.tokens
      (by rw [List.map_append, ← hd]; simp [Function.comp_def]) d rfl
    exact ⟨_, s, hs⟩
  · exact fun more s => parse_ne_ok (hk.always _ (firsts_succ_append more).symm) s

/-- `schema(x`, at the beginning of a source. -/
def opened : List SpannedToken :=
  [⟨.keyword .schema, ⟨0, 6⟩⟩, ⟨.mark .openParen, ⟨6, 7⟩⟩, ⟨.ident "x", ⟨7, 8⟩⟩]

/-- A word that is no type, behind those tokens. -/
def untyped : SpannedToken := ⟨.ident "float", ⟨9, 14⟩⟩

/-- `schema(x float` is refused at `float`: `schema(x` can be gone on with. -/
theorem parse_refuses_untyped :
    parse (opened ++ [untyped, ⟨.endOfInput, ⟨14, 14⟩⟩]) =
        .error ⟨.unknownType "float", ⟨9, 14⟩, none⟩ ∧
      (∃ more s, parse (opened ++ more) = .ok s) ∧
        ∀ more s, parse (opened ++ untyped :: more) ≠ .ok s := by
  have hrefused : parse (opened ++ [untyped, ⟨.endOfInput, ⟨14, 14⟩⟩]) =
      .error ⟨.unknownType "float", ⟨9, 14⟩, none⟩ := rfl
  obtain ⟨-, read, t, rest, hsplit, hspan, hbefore, hafter⟩ :=
    parse_refuses_earliest (w := [.keyword .schema, .mark .openParen, .ident "x", .ident "float"])
      rfl (by decide) hrefused
  -- No other token is in that place.
  have hopened : ∀ u ∈ opened, u.span ≠ ⟨9, 14⟩ := by decide
  have hend : ∀ u ∈ [(⟨.endOfInput, ⟨14, 14⟩⟩ : SpannedToken)], u.span ≠ ⟨9, 14⟩ := by decide
  obtain ⟨rfl, rfl, -⟩ := (List.append_cons_inj_of_notMem
    (fun ht => hopened t ht hspan.symm) (fun ht => hend t ht hspan.symm)).1 hsplit
  exact ⟨hrefused, hbefore, hafter⟩

end Schema

end EventScript
