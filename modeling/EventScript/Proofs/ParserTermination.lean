import EventScript.Proofs.Grammar.Halting
import EventScript.Proofs.ParserCorrectness

/-!
Reading comes to an end on all tokens but those that break off behind a literal or a name where a
statement could follow: with closing braces behind them they would be a schema. The last token is
never passed, so that it is read as the next statement for ever.
-/
namespace EventScript

open Grammar (StartsValue closing)

/-- The last token is a literal or a name, and closing braces make a schema of the tokens. -/
def Unending (tokens : List SpannedToken) : Prop :=
  (∃ t, tokens.getLast? = some t ∧ StartsValue t.token) ∧
    ∃ m, ∃ d : Grammar.Schema, d.tokens = tokens.map (·.token) ++ closing m

theorem firsts_singleton (n : Nat) (t : SpannedToken) : firsts n [t] = List.replicate n t :=
  List.eq_replicate_iff.2 ⟨length_firsts n [t], fun _ hu =>
    eq_front_of_mem_firsts (show [t].length ≤ 1 from Nat.le_refl 1) hu⟩

/-- The last token is come to over and over. -/
theorem firsts_concat (n : Nat) (ts : List SpannedToken) (t : SpannedToken) :
    firsts (ts.length + n) (ts ++ [t]) = ts ++ List.replicate n t := by
  rw [firsts_add, firsts_append (List.cons_ne_nil _ _), behind_append (List.cons_ne_nil _ _),
    firsts_singleton]

namespace Unending

variable {ts tokens : List SpannedToken} {t : SpannedToken}

theorem concat_iff : Unending (ts ++ [t]) ↔ StartsValue t.token ∧
    ∃ m, ∃ d : Grammar.Schema, d.tokens = ts.map (·.token) ++ t.token :: closing m := by
  simp [Unending]

theorem exists_concat (h : Unending tokens) : ∃ ts t, tokens = ts ++ [t] := by
  obtain ⟨⟨t, ht, -⟩, -⟩ := h
  exact ⟨_, t, (List.dropLast_append_getLast? t ht).symm⟩

/-- Tokens with the end of input behind them are not unending. -/
theorem not_of_ended {w : List Token} (hend : tokens.map (·.token) = w ++ [.endOfInput]) :
    ¬Unending tokens := by
  intro h
  obtain ⟨ts, t, rfl⟩ := h.exists_concat
  rw [List.map_append] at hend
  obtain ⟨-, hlast⟩ := List.append_inj' hend rfl
  have ht := (concat_iff.1 h).1
  rw [show t.token = .endOfInput from List.singleton_inj.1 hlast] at ht
  exact ht

/-- When the tokens close with the last one there over and over, they do with it there once. -/
theorem of_unclosed
    (h : Parser.Unclosed (fun w => ∃ d : Grammar.Schema, w = d.tokens) tokens) :
    Unending tokens := by
  obtain ⟨⟨t, hlast, ht⟩, n, m, hn, d, hd⟩ := h
  obtain ⟨ts, rfl⟩ : ∃ ts, tokens = ts ++ [t] :=
    ⟨_, (List.dropLast_append_getLast? t hlast).symm⟩
  obtain ⟨j, rfl⟩ := Nat.exists_eq_add_of_le hn
  rw [List.length_append, List.length_singleton, Nat.add_assoc, Nat.add_comm 1, firsts_concat,
    List.map_append, List.map_replicate, List.append_assoc] at hd
  exact concat_iff.2 ⟨ht, m, (Grammar.Schema.replicate_iff ht j).1 ⟨d, hd.symm⟩⟩

/-- However far one looks, what is seen can be gone on with as a schema. -/
theorem exists_schema (h : Unending tokens) (n : Nat) : ∃ us, us ≠ [] ∧
    ∃ d : Grammar.Schema,
      (firsts n tokens ++ us).map SpannedToken.token = d.tokens ++ [.endOfInput] := by
  obtain ⟨ts, t, rfl⟩ := h.exists_concat
  obtain ⟨ht, m, hd⟩ := concat_iff.1 h
  obtain ⟨d, hd⟩ := (Grammar.Schema.replicate_iff ht n).2 hd
  have hsplit := firsts_add n ts.length (ts ++ [t])
  rw [Nat.add_comm, firsts_concat] at hsplit
  refine ⟨firsts ts.length (behind n (ts ++ [t])) ++
    (t.token :: closing m ++ [Token.endOfInput]).map (⟨·, .none⟩), by simp, d, ?_⟩
  rw [← List.append_assoc, ← hsplit, hd]
  simp [List.replicate_succ', Function.comp_def]

end Unending

namespace Schema

variable {tokens : List SpannedToken}

/-- More fuel changes nothing once there is an answer. -/
theorem parse?_of_le {fuel fuel' : Nat} (h : fuel ≤ fuel') {r : Compiled Schema}
    (hr : parse? fuel tokens = some r) : parse? fuel' tokens = some r := by
  induction h with
  | refl => exact hr
  | step _ ih =>
    rw [parse?_eq] at ih ⊢
    obtain ⟨x, hx, hr⟩ := Option.map_eq_some_iff.1 ih
    exact Option.map_eq_some_iff.2 ⟨x, Parser.extends_schema _ tokens x hx, hr⟩

theorem parse?_unique {fuel fuel' : Nat} {r r' : Compiled Schema}
    (h : parse? fuel tokens = some r) (h' : parse? fuel' tokens = some r') : r = r' := by
  have hmax := parse?_of_le (Nat.le_max_left fuel fuel') h
  exact Option.some.inj (hmax.symm.trans (parse?_of_le (Nat.le_max_right fuel fuel') h'))

theorem parse?_eq_none_iff {fuel : Nat} :
    parse? fuel tokens = none ↔ Parser.schema fuel tokens = ExceptT.mk none := by
  rw [parse?_eq]
  exact Option.map_eq_none_iff

theorem parse?_eq_error_iff {fuel : Nat} {e : CompileError} :
    parse? fuel tokens = some (.error e) ↔ Parser.Fails (Parser.schema fuel) tokens e := by
  unfold Parser.Fails
  rw [parse?_eq]
  cases Parser.schema fuel tokens with
  | none => exact iff_of_false nofun nofun
  | some r =>
    cases r with
    | error e' =>
      constructor
      · rintro ⟨⟩
        rfl
      · rintro ⟨⟩
        rfl
    | ok r => exact iff_of_false nofun nofun

theorem parse?_of_parse {s : Schema} (h : parse tokens = .ok s) :
    parse? (Parser.fuelFor tokens) tokens = some (.ok s) := by
  obtain ⟨rest, hs⟩ := parse_eq_ok_iff.1 h
  rw [parse?_eq, show Parser.schema _ tokens = _ from hs]
  rfl

/-- What is refused with some fuel is not read. -/
theorem parse_ne_ok {fuel : Nat} {e : CompileError}
    (h : Parser.Fails (Parser.schema fuel) tokens e) (s : Schema) : parse tokens ≠ .ok s :=
  fun hs => nomatch parse?_unique (parse?_eq_error_iff.2 h) (parse?_of_parse hs)

theorem exists_parse?_of_not_unending (h : ¬Unending tokens) :
    ∃ r, parse? (Parser.fuelFor tokens) tokens = some r := by
  refine Option.ne_none_iff_exists'.1 fun hnone => h (.of_unclosed ?_)
  exact Parser.ends_schema (by rw [Parser.fuelFor]; omega) (parse?_eq_none_iff.1 hnone)

/-- Tokens that look like a schema's for as long as one likes are not answered. -/
theorem parse?_of_unending (h : Unending tokens) (fuel : Nat) : parse? fuel tokens = none := by
  obtain ⟨hreads, hrefuses⟩ := Parser.tellsAll_schema fuel tokens
  rw [parse?_eq_none_iff]
  cases hx : Parser.schema fuel tokens with
  | none => rfl
  | some r =>
    exfalso
    cases r with
    | error e =>
      obtain ⟨k, hk⟩ := hrefuses e hx
      obtain ⟨us, hus, d, hd⟩ := h.exists_schema (k + 1)
      obtain ⟨s, hs, -⟩ := exists_parse_of_tokens hd rfl
      exact parse_ne_ok (hk.always _ (firsts_firsts_append hus).symm) s hs
    | ok r =>
      obtain ⟨k, -, ⟨d, hd⟩, hend⟩ := hreads r.1 r.2 hx
      obtain ⟨us, hus, d', hd'⟩ := h.exists_schema (k + 1)
      rw [next_eq_front] at hend
      rw [firsts_succ, List.append_assoc, List.map_append, hd] at hd'
      obtain ⟨-, htail⟩ := Grammar.Schema.unique hd'
      exact hus (by simpa [hend] using htail)

/-- With fuel that the number of tokens bounds there is an answer, which more fuel does not change,
unless the tokens are unending: then no fuel is enough. Each parameter and each argument passes a
token, and so does each statement, but for a literal or a name that is the only token left. -/
theorem parse_stops (tokens : List SpannedToken) :
    (¬Unending tokens → ∃ r, ∀ fuel, Parser.fuelFor tokens ≤ fuel →
        parse? fuel tokens = some r) ∧
      (Unending tokens → ∀ fuel, parse? fuel tokens = none) ∧
      Parser.Passes Parser.param ∧ (∀ fuel, Parser.Passes (Parser.argument fuel)) ∧
      ∀ fuel ts e rest, Parser.Returns (Parser.statement fuel) ts e rest →
        rest.length < ts.length ∨ ∃ t, ts = [t] ∧ rest = [t] ∧ StartsValue t.token := by
  refine ⟨fun h => ?_, parse?_of_unending, Parser.passes_param, Parser.passes_argument,
    fun _ _ _ _ => Parser.statement_progress⟩
  obtain ⟨r, hr⟩ := exists_parse?_of_not_unending h
  exact ⟨r, fun fuel hfuel => parse?_of_le hfuel hr⟩

/-- `schema ( ) { 1`, with nothing behind it. -/
def brokenOff : List SpannedToken :=
  ([.keyword .schema, .mark .openParen, .mark .closeParen, .mark .openBrace,
    .number .one] : List Token).map (⟨·, .none⟩)

/-- Tokens that break off are not answered with any fuel; with the end of input behind them they
are. -/
theorem parse_stops_unless_brokenOff : (∀ fuel, parse? fuel brokenOff = none) ∧
    ∃ r, ∀ fuel, 112 ≤ fuel → parse? fuel (brokenOff ++ [⟨.endOfInput, .none⟩]) = some r := by
  have hunending : Unending brokenOff :=
    ⟨⟨_, rfl, trivial⟩, 1, ⟨none, .none, none, .step (.value (.arrow (.mk (.mk (.mk (.primary
      (.number .one)) .done) .done) .done))) .done⟩, rfl⟩
  have hended : ¬Unending (brokenOff ++ [⟨.endOfInput, .none⟩]) :=
    Unending.not_of_ended (w := brokenOff.map (·.token)) rfl
  exact ⟨(parse_stops brokenOff).2.1 hunending, (parse_stops _).1 hended⟩

end Schema

end EventScript
