import EventScript.Proofs.Grammar.Places
import EventScript.Proofs.ParserCorrectness
import EventScript.Proofs.Tiling

/-!
Spans of what is read nest. Every node of a tree begins with a token and ends with one, and has its
parts within it, one behind the other; a parameter goes from its name to its type, the body from
its brace to the one that closes it, and a schema from its keyword to that brace.
-/
namespace EventScript

/-- The span begins and ends with tokens, and has these parts within it, one behind the other. -/
structure Span.Nests (read : List SpannedToken) (s : Span) (parts : List Span) : Prop where
  tokens : ∃ first ∈ read, ∃ last ∈ read, s = ⟨first.span.start, last.span.stop⟩
  nonempty : s.start < s.stop
  holds : ∀ part ∈ parts, s.start ≤ part.start ∧ part.stop ≤ s.stop
  apart : parts.Pairwise fun a b => a.stop ≤ b.start

/-- Parameters with commas between them, and perhaps one at the end, each of a name and a type. -/
inductive Param.LieOver : List SpannedToken → List Param → Prop where
  | none : LieOver [] []
  | last {p : Param} {name type : Span}
      (span : p.span.Over [⟨.ident p.name, name⟩, ⟨.ident p.type.name, type⟩]) :
      LieOver [⟨.ident p.name, name⟩, ⟨.ident p.type.name, type⟩] [p]
  | more {p : Param} {name type comma : Span} {ts : List SpannedToken} {ps : List Param}
      (span : p.span.Over [⟨.ident p.name, name⟩, ⟨.ident p.type.name, type⟩])
      (others : LieOver ts ps) :
      LieOver (⟨.ident p.name, name⟩ :: ⟨.ident p.type.name, type⟩ :: ⟨.mark .comma, comma⟩ :: ts)
        (p :: ps)

/-- A schema from its keyword to the brace that closes its body. -/
inductive Schema.LiesOver : List SpannedToken → Schema → Prop where
  | intro {s : Schema} {keyword left right opening closing : Span}
      {name params result inner : List SpannedToken} {type? : Option Grammar.TypeName}
      (named : name.map (·.token) = Grammar.Schema.nameTokens s.name?)
      (declared : Param.LieOver params s.params)
      (returns : result.map (·.token) = Grammar.Schema.resultTokens type?)
      (body : s.body.LiesOver
        (⟨.mark .openBrace, opening⟩ :: (inner ++ [⟨.mark .closeBrace, closing⟩])))
      (span : s.span = ⟨keyword.start, closing.stop⟩) :
      LiesOver ([⟨.keyword .schema, keyword⟩] ++ name ++ [⟨.mark .openParen, left⟩] ++ params ++
        [⟨.mark .closeParen, right⟩] ++ result ++
          ⟨.mark .openBrace, opening⟩ :: (inner ++ [⟨.mark .closeBrace, closing⟩])) s

/-- The spans of a schema that has been read from these tokens. -/
structure Schema.Nests (read : List SpannedToken) (s : Schema) : Prop where
  layout : s.LiesOver read
  whole : s.span.Nests read (s.params.map (·.span) ++ [s.body.span])
  params : ∀ p ∈ s.params, p.span.Nests read []
  nodes : ∀ place e, s.body.at? place = some e → e.span.Nests read (e.children.map (·.span))

/-! ### Runs within runs -/

section

variable {α β : Type} {R : List SpannedToken → α → Prop} {R' : List SpannedToken → β → Prop}
  {as : List α} {f : α → β} {s : Span} {parts : List Span} {ts run read : List SpannedToken}

theorem Spread.map (h : Spread R ts as) (hf : ∀ run a, R run a → R' run (f a)) :
    Spread R' ts (as.map f) := by
  induction h with
  | none => exact .none
  | cons first _ ih => exact .cons (hf _ _ first) ih

theorem Spread.exists_infix (h : Spread R ts as) : ∀ a ∈ as, ∃ run, run <:+: ts ∧ R run a := by
  induction h with
  | none => simp
  | @cons gap run rest a as first _ ih =>
    refine List.forall_mem_cons.2 ⟨⟨run, ⟨gap, rest, by simp⟩, first⟩, fun b hb => ?_⟩
    obtain ⟨inner, hinner, hb⟩ := ih b hb
    exact ⟨inner, hinner.trans ⟨gap ++ run, [], by simp⟩, hb⟩

/-- What lies over runs one behind the other is apart. -/
theorem Spread.apart (h : Spread (fun run s => Span.Over s run) ts parts) (hordered : InOrder ts) :
    parts.Pairwise fun a b => a.stop ≤ b.start := by
  induction h with
  | none => exact .nil
  | @cons gap run rest a as first others ih =>
    have hordered := hordered.right
    refine List.pairwise_cons.2 ⟨fun b hb => ?_, ih hordered.right⟩
    obtain ⟨inner, hinner, hb⟩ := others.exists_infix b hb
    obtain ⟨_, last, -, hlast, rfl⟩ := first
    obtain ⟨next, _, hnext, -, rfl⟩ := hb
    exact hordered.le (List.mem_of_getLast? hlast) (hinner.subset (List.mem_of_head? hnext))

theorem Span.Over.eq {a b : SpannedToken} (hs : s.Over run) (hfirst : run.head? = some a)
    (hlast : run.getLast? = some b) : s = ⟨a.span.start, b.span.stop⟩ := by
  obtain ⟨_, _, hfirst', hlast', rfl⟩ := hs
  cases hfirst.symm.trans hfirst'
  cases hlast.symm.trans hlast'
  rfl

theorem Span.Over.nests (hs : s.Over run) (hparts : Spread (fun run s => Span.Over s run) run parts)
    (hrun : run <:+: read) (hordered : InOrder read) : s.Nests read parts := by
  have hordered := hordered.sublist hrun.sublist
  obtain ⟨first, last, hfirst, hlast, heq⟩ := id hs
  have hfirst := List.mem_of_head? hfirst
  have hlast := List.mem_of_getLast? hlast
  refine ⟨⟨first, hrun.subset hfirst, last, hrun.subset hlast, heq⟩, ?_, fun part hpart => ?_,
    hparts.apart hordered⟩
  · obtain ⟨hstart, hstop⟩ := hs.holds hordered hfirst
    have := hordered.nonempty first hfirst
    omega
  · obtain ⟨inner, hinner, head, tail, hhead, htail, rfl⟩ := hparts.exists_infix part hpart
    exact ⟨(hs.holds hordered (hinner.subset (List.mem_of_head? hhead))).1,
      (hs.holds hordered (hinner.subset (List.mem_of_getLast? htail))).2⟩

/-- A node at any place lies over a run of the tokens. -/
theorem Expr.LiesOver.exists_run {e part : Expr} {place : List Nat} (h : e.LiesOver ts)
    (hpart : e.at? place = some part) : ∃ run, run <:+: ts ∧ part.LiesOver run := by
  induction place generalizing e ts with
  | nil =>
    cases hpart
    exact ⟨ts, List.infix_refl _, h⟩
  | cons i place ih =>
    obtain ⟨child, hchild, hpart⟩ := Option.bind_eq_some_iff.1 hpart
    obtain ⟨inner, hinner, hlies⟩ := h.parts.exists_infix child (List.mem_of_getElem? hchild)
    obtain ⟨run, hrun, hpart⟩ := ih hlies hpart
    exact ⟨run, hrun.trans hinner, hpart⟩

theorem Expr.LiesOver.nests {e : Expr} (h : e.LiesOver run) (hrun : run <:+: read)
    (hordered : InOrder read) : e.span.Nests read (e.children.map (·.span)) :=
  h.span.nests (h.parts.map fun _ _ => LiesOver.span) hrun hordered

theorem Param.LieOver.spread {ps : List Param} (h : Param.LieOver ts ps) :
    Spread (fun run p => p.span.Over run) ts ps := by
  induction h with
  | none => exact .none
  | last span => exact .single span
  | more span _ ih => exact .append (.single span) (ih.behind [_])

theorem Schema.LiesOver.nests {s : Schema} (h : s.LiesOver read) (hordered : InOrder read) :
    s.Nests read := by
  have hlayout := h
  obtain @⟨s, keyword, left, right, opening, closing, name, params, result, inner, type?, -,
    declared, -, body, span⟩ := h
  have hparams := declared.spread
  refine ⟨hlayout, ?_, fun p hp => ?_, fun place e he => ?_⟩
  · refine Span.Over.nests ⟨⟨.keyword .schema, keyword⟩, ⟨.mark .closeBrace, closing⟩, by simp,
      by simp [List.getLast?_cons], span⟩ ?_ (List.infix_refl _) hordered
    have hbody := Spread.single (R := fun run s => Span.Over s run) body.span
    exact ((((hparams.map fun _ _ => id).behind _).before _).before _).append hbody
  · obtain ⟨run, hrun, hover⟩ := hparams.exists_infix p hp
    refine hover.nests .none (hrun.trans ?_) hordered
    exact ⟨[⟨.keyword .schema, keyword⟩] ++ name ++ [⟨.mark .openParen, left⟩], _,
      by simp only [List.append_assoc]; rfl⟩
  · obtain ⟨run, hrun, hlies⟩ := body.exists_run he
    exact hlies.nests (hrun.trans (List.suffix_append _ _).isInfix) hordered

end

/-! ### What is read -/

theorem Span.over_merge_pair {a b : SpannedToken} (h : InOrder [a, b]) :
    (a.span.merge b.span).Over [a, b] :=
  Over.merge [] (over_singleton a) (over_singleton b) h

namespace Parser

theorem consumes_params : ∀ fuel (read : List Param) {H : SpannedToken → Prop}, Consumes H
    (fun w ps => ∃ new, ps = read.reverse ++ new ∧ (InOrder w → Param.LieOver w new))
      (params fuel read)
  | 0, _, _ => consumes_outOfFuel
  | fuel + 1, read, H => by
    unfold params
    refine consumes_peek_bind fun t => ?_
    split
    · exact consumes_pure ⟨[], by simp, fun _ => .none⟩
    · refine consumes_bind consumes_name ?_
      rintro ⟨name, nameSpan⟩ _ rfl
      refine consumes_bind consumes_type ?_
      rintro ⟨type, typeSpan⟩ _ ⟨rfl, -⟩
      refine consumes_separator_bind
        (consumes_mono (reads_iff_consumes.1 reads_params_close) (fun _ => id) ?_)
        fun span => consumes_mono (consumes_params fuel _) (fun _ => id) ?_
      · rintro w ps ⟨hw, rfl⟩
        cases List.map_eq_nil_iff.1 hw
        exact ⟨[_], List.reverse_cons, fun h =>
          .last (p := ⟨name, type, nameSpan.merge typeSpan⟩) (Span.over_merge_pair h)⟩
      · rintro w ps ⟨new, rfl, hnew⟩
        refine ⟨⟨name, type, nameSpan.merge typeSpan⟩ :: new, by simp, fun hordered => ?_⟩
        have hpair : InOrder [⟨.ident name, nameSpan⟩, ⟨.ident type.name, typeSpan⟩] :=
          InOrder.left hordered
        exact .more (p := ⟨name, type, nameSpan.merge typeSpan⟩) (Span.over_merge_pair hpair)
          (hnew hordered.tail.tail.tail)

/-- A schema lies over all tokens before the end of input. -/
theorem consumesAll_schema {fuel : Nat} : ConsumesAll (fun ts (s : Schema) =>
    ∃ read ending, ts = read ++ [⟨.endOfInput, ending⟩] ∧ (InOrder read → s.LiesOver read))
      (schema fuel) := by
  have tail {keyword : Span} {name? : Option String} (name : List SpannedToken)
      (named : name.map (·.token) = Grammar.Schema.nameTokens name?) :
      ConsumesAll (fun ts (s : Schema) => ∃ read ending,
        ⟨.keyword .schema, keyword⟩ :: (name ++ ts) = read ++ [⟨.endOfInput, ending⟩] ∧
          (InOrder read → s.LiesOver read)) (do
      discard (expect (.mark .openParen))
      let params ← params fuel []
      discard (expect (.mark .closeParen))
      let returns ← result
      let body ← block fuel
      discard (expect .endOfInput)
      return ⟨name?, params, returns, body, keyword.merge body.span⟩) := by
    refine consumesAll_bind (consumes_discard (consumes_expect (by decide))) ?_
    rintro - _ ⟨left, rfl⟩
    refine consumesAll_bind (consumes_params fuel []) ?_
    rintro ps params ⟨_, rfl, hparams⟩
    refine consumesAll_bind (consumes_discard (consumes_expect (by decide))) ?_
    rintro - _ ⟨right, rfl⟩
    refine consumesAll_bind (reads_iff_consumes.1 (reads_result (H := Any))) ?_
    rintro returns result ⟨type?, hresult, -⟩
    refine consumesAll_bind (consumes_block fuel) ?_
    rintro body _ ⟨opening, inner, closing, rfl, hbody⟩
    refine consumesAll_end fun ending => ⟨[⟨.keyword .schema, keyword⟩] ++ name ++
      [⟨.mark .openParen, left⟩] ++ params ++ [⟨.mark .closeParen, right⟩] ++ result ++
        ⟨.mark .openBrace, opening⟩ :: (inner ++ [⟨.mark .closeBrace, closing⟩]), ending,
      by simp, fun hordered => ?_⟩
    have hbody := hbody hordered.right
    refine .intro named (hparams hordered.left.left.left.right) hresult hbody ?_
    have hspan := Span.Over.merge (name ++ [⟨.mark .openParen, left⟩] ++ params ++
      [⟨.mark .closeParen, right⟩] ++ result) (Span.over_singleton ⟨.keyword .schema, keyword⟩)
        hbody.span (by simpa using hordered)
    exact hspan.eq (b := ⟨.mark .closeBrace, closing⟩) rfl (by simp [List.getLast?_cons])
  unfold schema
  refine consumesAll_bind (consumes_expect (by decide)) fun keyword w hw => ?_
  subst hw
  refine consumesAll_peek_bind fun t => ?_
  simp only
  split
  · refine consumesAll_bind consumes_name fun r w hw => ?_
    subst hw
    exact tail [_] rfl
  · exact tail [] rfl

end Parser

theorem Tiling.inOrder {text : String} {tokens : List SpannedToken} (h : Tiling text tokens) :
    ∃ read, tokens = read ++ [⟨.endOfInput, ⟨text.utf8ByteSize, text.utf8ByteSize⟩⟩] ∧
      InOrder read ∧ Ended tokens := by
  obtain ⟨read, rfl, hread⟩ := h.ends
  have hordered := h.ordered
  refine ⟨read, rfl, ⟨fun t ht => (hread t ht).2, (List.pairwise_append.1 hordered).1⟩, ?_⟩
  refine ended_of_map (w := read.map (·.token)) (by simp) fun hmem => ?_
  obtain ⟨t, ht, htoken⟩ := List.mem_map.1 hmem
  exact (hread t ht).1 htoken

/-- Read from a text, spans nest. -/
theorem Schema.spans_nest {text : String} {tokens : List SpannedToken} {s : Schema}
    (hlex : lex text = .ok tokens) (hparse : parse tokens = .ok s) :
    ∃ read ending, tokens = read ++ [⟨.endOfInput, ending⟩] ∧ s.Nests read := by
  obtain ⟨read, hread, hordered, hended⟩ := (lex_tiles hlex).inOrder
  obtain ⟨rest, hreturns⟩ := parse_eq_ok_iff.1 hparse
  obtain ⟨read', ending, htokens, hlies⟩ := Parser.consumesAll_schema hended hreturns
  obtain ⟨rfl, heq⟩ := List.append_inj' (hread.symm.trans htokens) rfl
  exact ⟨read, ending, htokens, (hlies hordered).nests hordered⟩

namespace Schema

def relayText : String := "schema (x any,) \x7b x - y -> f(x) \x7d"

def relayTokens : List SpannedToken :=
  [⟨.keyword .schema, ⟨0, 6⟩⟩, ⟨.mark .openParen, ⟨7, 8⟩⟩, ⟨.ident "x", ⟨8, 9⟩⟩,
    ⟨.ident "any", ⟨10, 13⟩⟩, ⟨.mark .comma, ⟨13, 14⟩⟩, ⟨.mark .closeParen, ⟨14, 15⟩⟩,
    ⟨.mark .openBrace, ⟨16, 17⟩⟩, ⟨.ident "x", ⟨18, 19⟩⟩, ⟨.mark .minus, ⟨20, 21⟩⟩,
    ⟨.ident "y", ⟨22, 23⟩⟩, ⟨.mark .arrow, ⟨24, 26⟩⟩, ⟨.ident "f", ⟨27, 28⟩⟩,
    ⟨.mark .openParen, ⟨28, 29⟩⟩, ⟨.ident "x", ⟨29, 30⟩⟩, ⟨.mark .closeParen, ⟨30, 31⟩⟩,
    ⟨.mark .closeBrace, ⟨32, 33⟩⟩, ⟨.endOfInput, ⟨33, 33⟩⟩]

/-- The receiver comes first among the arguments, as it does in the text. -/
def relay : Schema where
  name? := none
  params := [⟨"x", .any, ⟨8, 13⟩⟩]
  returns := .void
  body := .block ⟨16, 33⟩ [.call ⟨18, 31⟩ "f" [.arithmetic ⟨18, 23⟩ .sub (.read ⟨18, 19⟩ "x")
    (.read ⟨22, 23⟩ "y"), .read ⟨29, 30⟩ "x"] none]
  span := ⟨0, 33⟩

theorem spans_nest_relay : lex relayText = .ok relayTokens ∧ parse relayTokens = .ok relay ∧
    ∃ read ending, relayTokens = read ++ [⟨.endOfInput, ending⟩] ∧ relay.Nests read := by
  have hlex : lex relayText = .ok relayTokens := by cbv
  have hparse : parse relayTokens = .ok relay := by cbv
  exact ⟨hlex, hparse, spans_nest hlex hparse⟩

end Schema

end EventScript
