import EventScript.Proofs.Complaints.Reading
import EventScript.Proofs.Grammar.Complete

/-!
The parser accepts just what the grammar derives, and answers the tree of the derivation, of which
there is only one.
-/
namespace EventScript

variable {tokens : List SpannedToken} {w : List Token}

theorem ended_of_map (hend : tokens.map (·.token) = w ++ [.endOfInput]) (honly : .endOfInput ∉ w) :
    Ended tokens := by
  induction w generalizing tokens with
  | nil =>
    obtain ⟨⟨token, span⟩, rfl, rfl⟩ := List.map_eq_singleton_iff.1 hend
    exact .last span
  | cons t w ih =>
    obtain ⟨u, us, rfl, hu, hus⟩ := List.map_eq_cons_iff.1 hend
    obtain ⟨ht, hw⟩ := not_or.1 (mt List.mem_cons.2 honly)
    exact .cons (fun h => ht (h.symm.trans hu)) (ih hus hw)

namespace Schema

theorem parse_eq_ok_iff {s : Schema} : parse tokens = .ok s ↔
    ∃ rest, Parser.Returns (Parser.schema (Parser.fuelFor tokens)) tokens s rest := by
  unfold parse Parser.Returns
  rw [parse?_eq]
  cases Parser.schema (Parser.fuelFor tokens) tokens with
  | none => exact iff_of_false nofun nofun
  | some r =>
    cases r with
    | error e => exact iff_of_false nofun nofun
    | ok r =>
      constructor
      · rintro ⟨⟩
        exact ⟨r.2, rfl⟩
      · rintro ⟨rest, ⟨⟩⟩
        rfl

/-- What is read has been derived. -/
theorem exists_of_parse (hend : tokens.map (·.token) = w ++ [.endOfInput])
    (honly : .endOfInput ∉ w) {s : Schema} (hs : parse tokens = .ok s) :
    ∃ d : Grammar.Schema, d.tokens = w ∧ s.unspanned = d.tree := by
  obtain ⟨rest, hreturns⟩ := parse_eq_ok_iff.1 hs
  obtain ⟨d, hd, htree⟩ := Parser.readsAll_schema (ended_of_map hend honly) hreturns
  exact ⟨d, List.append_cancel_right (hd.symm.trans hend), htree⟩

/-- What is derived is read. -/
theorem exists_parse_of_tokens (hend : tokens.map (·.token) = w ++ [.endOfInput])
    {d : Grammar.Schema} (hd : d.tokens = w) :
    ∃ s, parse tokens = .ok s ∧ s.unspanned = d.tree := by
  have hlength := congrArg List.length hend
  simp only [List.length_map, List.length_append, List.length_singleton] at hlength
  obtain ⟨read, rest, rfl, hread, hrest⟩ := List.map_eq_append_iff.1 hend
  obtain ⟨s, hs, htree⟩ := @Parser.accepts_schema d (Parser.fuelFor (read ++ rest))
    (by rw [Parser.fuelFor, hd]; omega) _ _ (hread.trans hd.symm) (by rintro rfl; cases hrest) hrest
  exact ⟨s, parse_eq_ok_iff.2 ⟨rest, hs⟩, htree⟩

/-- Tokens before the end of input are read just if they are derived. They have one derivation
then, whose tree is what is read, and in which a receiver is the first argument of its call. -/
theorem parse_exactly (hend : tokens.map (·.token) = w ++ [.endOfInput])
    (honly : .endOfInput ∉ w) :
    ((∃ s, parse tokens = .ok s) ↔ ∃ d : Grammar.Schema, d.tokens = w) ∧
      (∀ d d' : Grammar.Schema, d.tokens = w → d'.tokens = w → d = d') ∧
        (∀ s (d : Grammar.Schema), parse tokens = .ok s → d.tokens = w → s.unspanned = d.tree) ∧
          ∀ (receiver : Grammar.Term) (name : Grammar.BareName) (args : Grammar.Arguments),
            (Grammar.Arrow.mk receiver (.call name.1 args .done)).tree =
              (Grammar.Invocation.call name (.more (.arrow (.mk receiver .done)) args)).tree := by
  have hunique (d d' : Grammar.Schema) (hd : d.tokens = w) (hd' : d'.tokens = w) : d = d' :=
    Grammar.Schema.eq_of_tokens_eq (hd.trans hd'.symm)
  refine ⟨⟨?_, ?_⟩, hunique, ?_, fun receiver name args => ?_⟩
  · rintro ⟨s, hs⟩
    obtain ⟨d, hd, -⟩ := exists_of_parse hend honly hs
    exact ⟨d, hd⟩
  · rintro ⟨d, hd⟩
    obtain ⟨s, hs, -⟩ := exists_parse_of_tokens hend hd
    exact ⟨s, hs⟩
  · intro s d hs hd
    obtain ⟨d', hd', htree⟩ := exists_of_parse hend honly hs
    rwa [hunique d d' hd hd']
  · simp only [Grammar.Arrow.tree, Grammar.Arrows.tree, Grammar.Invocation.tree,
      Grammar.Arguments.trees, Grammar.Value.tree]

open Grammar in
/-- The levels of values: `y = x + "a" - "b" -> f("c",)` reads as `y = f(x + ("a" - "b"), "c")`. -/
theorem parse_levels : ∃ s, parse (([.keyword .schema, .mark .openParen, .ident "x", .ident "any",
      .mark .closeParen, .mark .openBrace, .ident "y", .mark .equals, .ident "x", .mark .plus,
      .string "a", .mark .minus, .string "b", .mark .arrow, .ident "f", .mark .openParen,
      .string "c", .mark .comma, .mark .closeParen, .mark .closeBrace,
      .endOfInput] : List Token).map (⟨·, .none⟩)) = .ok s ∧
    s.unspanned = ⟨none, [⟨"x", .any, .none⟩], .void, .block .none [.write .none "y"
      (.call .none "f" [.arithmetic .none .add (.read .none "x")
        (.arithmetic .none .sub (.string .none "a") (.string .none "b")), .string .none "c"]
          none)], .none⟩ := by
  let literal (text : String) : Invocation := .primary (.string text)
  let receiver : Term := .mk (.mk (.primary (.name ⟨"x", by decide⟩)) .done)
    (.step .plus (.mk (literal "a") (.step .minus (literal "b") .done)) .done)
  let argument : Grammar.Value := .arrow (.mk (.mk (.mk (literal "c") .done) .done) .done)
  let d : Grammar.Schema := ⟨none, .last "x" ⟨.any, by decide⟩, none, .step (.value (.assign
    ⟨"y", by decide⟩ (.arrow (.mk receiver (.call "f" (.more argument .none) .done))))) .done⟩
  have h := @parse_exactly ((d.tokens ++ [Token.endOfInput]).map (⟨·, .none⟩)) d.tokens rfl
    (by decide)
  obtain ⟨s, hs⟩ := h.1.2 ⟨d, rfl⟩
  exact ⟨s, hs, h.2.2.1 s d hs rfl⟩

end Schema

end EventScript
