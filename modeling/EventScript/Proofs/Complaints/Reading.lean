import EventScript.Proofs.Complaints.Lowering
import EventScript.Syntax.Parser

/-!
What reading complains about: characters that begin no token, and tokens or words out of place. The
places in the tree that is read come from its tokens.
-/
namespace EventScript

namespace Lexer

variable {quote : Char} {start pos : Nat} {read cs : List Char}

theorem kind_of_refuse {α : Type} {complaint : CompileError.Complaint} {span : Span}
    {e : CompileError} (h : (refuse complaint span : Compiled α) = .error e) :
    e.kind = complaint.kind := by
  cases h
  rfl

theorem kind_of_scanString {e : CompileError} (h : scanString quote start pos read cs = .error e) :
    e.kind = .lex := by
  fun_induction scanString quote start pos read cs with
  | case1 | case2 | case4 | case6 => exact kind_of_refuse h
  | case3 => cases h
  | case5 _ _ _ _ _ _ _ _ ih => exact ih h
  | case7 _ _ _ _ _ _ _ ih => exact ih h

theorem kind_of_scanText {e : CompileError} (h : scanText start pos read cs = .error e) :
    e.kind = .lex := by
  fun_induction scanText start pos read cs with
  | case1 => exact kind_of_refuse h
  | case2 => cases h
  | case3 _ _ _ _ _ ih => exact ih h

theorem kind_of_scanToken {c : Char} {e : CompileError} (h : scanToken pos c cs = .error e) :
    e.kind = .lex := by
  unfold scanToken at h
  split at h
  · cases h
  · split at h
    · exact kind_of_scanString (map_eq_error.1 h)
    · split at h
      · exact kind_of_scanText (map_eq_error.1 h)
      · split at h
        · cases h
        · split at h
          · cases h
          · exact kind_of_refuse h

theorem kind_of_tokensFrom {tokens : List SpannedToken} {e : CompileError}
    (h : tokensFrom pos cs tokens = .error e) : e.kind = .lex := by
  fun_induction tokensFrom pos cs tokens with
  | case1 => cases h
  | case2 _ _ _ _ _ _ _ _ hscanned =>
    cases h
    exact kind_of_scanToken hscanned
  | case3 _ _ _ _ _ _ _ _ _ _ _ ih => exact ih h

end Lexer

namespace Parser

variable {α β : Type} {S : Span → Prop} {P : α → Prop} {Q : β → Prop}

/-- Read from tokens with such places, what is read has the property, the tokens left have such
places too, and all that goes wrong is about one. -/
def Keeps (S : Span → Prop) (P : α → Prop) (p : Parser α) : Prop :=
  ∀ tokens : List SpannedToken, (∀ t ∈ tokens, S t.span) →
    (∀ e, p tokens = ExceptT.mk (some (.error e)) → e.At S) ∧
      ∀ a rest, p tokens = ExceptT.mk (some (.ok (a, rest))) → (∀ t ∈ rest, S t.span) ∧ P a

/-- Nothing goes wrong. -/
theorem keeps_of_eq_ok {p : Parser α} {a : List SpannedToken → α}
    {rest : List SpannedToken → List SpannedToken}
    (hp : ∀ tokens, p tokens = ExceptT.mk (some (.ok (a tokens, rest tokens))))
    (h : ∀ tokens, (∀ t ∈ tokens, S t.span) → (∀ t ∈ rest tokens, S t.span) ∧ P (a tokens)) :
    Keeps S P p := by
  intro tokens htokens
  rw [hp]
  refine ⟨fun _ h => (nomatch h), ?_⟩
  rintro _ _ ⟨⟩
  exact h tokens htokens

theorem keeps_pure {a : α} (h : P a) : Keeps S P (pure a) :=
  keeps_of_eq_ok (fun _ => rfl) fun _ htokens => ⟨htokens, h⟩

theorem keeps_outOfFuel : Keeps S P outOfFuel :=
  fun _ _ => ⟨fun _ h => (nomatch h), fun _ _ h => nomatch h⟩

theorem keeps_refuse {complaint : CompileError.Complaint} {span : Span} (hspan : S span)
    (hkind : complaint.kind ≠ .duplicateSchema := by simp [CompileError.Complaint.kind]) :
    Keeps S P (refuse complaint span) := by
  refine fun _ _ => ⟨?_, fun _ _ h => nomatch h⟩
  rintro _ ⟨⟩
  exact ⟨hspan, rfl, hkind⟩

theorem keeps_bind {p : Parser β} {f : β → Parser α} (hp : Keeps S Q p)
    (hf : ∀ b, Q b → Keeps S P (f b)) : Keeps S P (p >>= f) := by
  intro tokens htokens
  change (∀ e, (p tokens >>= fun r => f r.1 r.2 : ExceptT CompileError Option _) = _ → _) ∧
    ∀ a rest, (p tokens >>= fun r => f r.1 r.2 : ExceptT CompileError Option _) = _ → _
  have hkeeps := hp tokens htokens
  cases hx : p tokens with
  | none => exact ⟨fun _ h => (nomatch h), fun _ _ h => nomatch h⟩
  | some r =>
    rw [hx] at hkeeps
    cases r with
    | error e => exact ⟨fun _ h => hkeeps.1 _ (by cases h; rfl), fun _ _ h => nomatch h⟩
    | ok r =>
      obtain ⟨b, rest⟩ := r
      obtain ⟨hrest, hb⟩ := hkeeps.2 b rest rfl
      exact hf b hb rest hrest

theorem keeps_discard {p : Parser β} (hp : Keeps S Q p) : Keeps S (fun _ => True) (discard p) :=
  keeps_bind hp fun _ _ => keeps_pure trivial

theorem keeps_peek : Keeps S (fun _ => True) peek :=
  keeps_of_eq_ok (fun _ => rfl) fun _ htokens => ⟨htokens, trivial⟩

theorem keeps_advance : Keeps S (fun _ => True) advance := by
  refine keeps_of_eq_ok (fun _ => rfl) fun tokens htokens => ⟨?_, trivial⟩
  match tokens with
  | [] | [_] => exact htokens
  | _ :: _ :: _ => exact fun t ht => htokens t (List.mem_cons_of_mem _ ht)

section

variable (hS : Span.Places S)

include hS

theorem keeps_here : Keeps S S here := by
  refine keeps_of_eq_ok (fun _ => rfl) fun tokens htokens => ⟨htokens, ?_⟩
  cases tokens with
  | nil => exact hS.none
  | cons t ts => exact htokens t List.mem_cons_self

theorem keeps_unexpected {expected : String} : Keeps S P (unexpected expected) :=
  keeps_bind keeps_peek fun _ _ => keeps_bind (keeps_here hS) fun _ hspan => keeps_refuse hspan

theorem keeps_expect {t : Token} : Keeps S S (expect t) := by
  refine keeps_bind keeps_peek fun token _ => ?_
  split
  · exact keeps_bind (keeps_here hS) fun _ hspan =>
      keeps_bind keeps_advance fun _ _ => keeps_pure hspan
  · exact keeps_unexpected hS

theorem keeps_name {what : String} : Keeps S (fun r => S r.2) (name what) := by
  refine keeps_bind keeps_peek fun token _ => ?_
  split
  · exact keeps_bind (keeps_here hS) fun _ hspan =>
      keeps_bind keeps_advance fun _ _ => keeps_pure hspan
  · exact keeps_unexpected hS

theorem keeps_type : Keeps S (fun r => S r.2) type := by
  refine keeps_bind (keeps_name hS) fun (word, span) hspan => ?_
  simp only
  split
  · exact keeps_pure hspan
  · exact keeps_refuse hspan

theorem keeps_separator : Keeps S (fun _ => True) separator := by
  refine keeps_bind keeps_peek fun token _ => ?_
  split
  · exact keeps_pure trivial
  · exact keeps_discard (keeps_expect hS)

theorem keeps_params : ∀ (fuel : Nat) {read : List Param}, (∀ p ∈ read, S p.span) →
    Keeps S (fun ps => ∀ p ∈ ps, S p.span) (params fuel read)
  | 0, _, _ => keeps_outOfFuel
  | fuel + 1, read, h => by
    unfold params
    refine keeps_bind keeps_peek fun token _ => ?_
    split
    · exact keeps_pure (by simpa using h)
    · refine keeps_bind (keeps_name hS) fun (name, nameSpan) hname => ?_
      refine keeps_bind (keeps_type hS) fun (type, typeSpan) htype => ?_
      refine keeps_bind (keeps_separator hS) fun _ _ => keeps_params fuel ?_
      exact List.forall_mem_cons.2 ⟨hS.merge hname htype, h⟩

theorem keeps_result : Keeps S (fun _ => True) result := by
  refine keeps_bind keeps_peek fun token _ => ?_
  split
  · exact keeps_bind keeps_advance fun _ _ => keeps_bind (keeps_type hS) fun _ _ =>
      keeps_pure trivial
  · exact keeps_pure trivial

theorem keeps_primary : Keeps S (Expr.Lies S) primary := by
  refine keeps_bind (keeps_here hS) fun span hspan => ?_
  refine keeps_bind keeps_peek fun token _ => ?_
  split
  · exact keeps_bind keeps_advance fun _ _ => keeps_pure (Expr.lies_number.2 hspan)
  · exact keeps_bind keeps_advance fun _ _ => keeps_pure (Expr.lies_string.2 hspan)
  · exact keeps_bind keeps_advance fun _ _ => keeps_pure (Expr.lies_text.2 hspan)
  · refine keeps_bind keeps_advance fun _ _ => ?_
    split
    · exact keeps_pure (Expr.lies_bool.2 hspan)
    · split
      · exact keeps_pure (Expr.lies_bool.2 hspan)
      · exact keeps_pure (Expr.lies_read.2 hspan)
  · exact keeps_unexpected hS

theorem lies_combine {op : Arithmetic} {left right : Expr}
    (hleft : left.Lies S) (hright : right.Lies S) : (combine op left right).Lies S :=
  Expr.lies_arithmetic.2 ⟨hS.merge hleft.span hright.span, hleft, hright⟩

end

mutual

theorem keeps_block (hS : Span.Places S) : ∀ fuel, Keeps S (Expr.Lies S) (block fuel)
  | 0 => keeps_outOfFuel
  | fuel + 1 => by
    unfold block
    refine keeps_bind (keeps_expect hS) fun start hstart => ?_
    refine keeps_bind (keeps_statements hS fuel (by simp)) fun body hbody => ?_
    refine keeps_bind (keeps_expect hS) fun stop hstop => keeps_pure ?_
    exact Expr.lies_block.2 ⟨hS.merge hstart hstop, Expr.allLie_iff.2 hbody⟩

theorem keeps_statements (hS : Span.Places S) : ∀ fuel {read : List Expr}, (∀ e ∈ read, e.Lies S) →
    Keeps S (fun es => ∀ e ∈ es, e.Lies S) (statements fuel read)
  | 0, _, _ => keeps_outOfFuel
  | fuel + 1, read, h => by
    unfold statements
    refine keeps_bind keeps_peek fun token _ => ?_
    split
    · exact keeps_pure (by simpa using h)
    · exact keeps_bind (keeps_statement hS fuel) fun s hs =>
        keeps_statements hS fuel (List.forall_mem_cons.2 ⟨hs, h⟩)

theorem keeps_statement (hS : Span.Places S) : ∀ fuel, Keeps S (Expr.Lies S) (statement fuel)
  | 0 => keeps_outOfFuel
  | fuel + 1 => by
    unfold statement
    refine keeps_bind keeps_peek fun token _ => ?_
    split
    · refine keeps_bind (keeps_here hS) fun start hstart => keeps_bind keeps_advance fun _ _ => ?_
      refine keeps_bind (keeps_value hS fuel) fun count hcount => ?_
      refine keeps_bind (keeps_block hS fuel) fun body hbody => keeps_pure ?_
      exact Expr.lies_loop.2 ⟨hS.merge hstart hbody.span, hcount, hbody⟩
    · refine keeps_bind (keeps_here hS) fun start hstart => keeps_bind keeps_advance fun _ _ => ?_
      refine keeps_bind (keeps_value hS fuel) fun condition hcondition => ?_
      refine keeps_bind (keeps_block hS fuel) fun thenBody hthen => ?_
      have hspan := hS.merge hstart hthen.span
      refine keeps_bind keeps_peek fun token _ => ?_
      split
      · refine keeps_bind keeps_advance fun _ _ => ?_
        refine keeps_bind (keeps_block hS fuel) fun elseBody helse => keeps_pure ?_
        exact Expr.lies_branchElse.2 ⟨hS.merge hspan helse.span, hcondition, hthen, helse⟩
      · exact keeps_pure (Expr.lies_branch.2 ⟨hspan, hcondition, hthen⟩)
    · refine keeps_bind (keeps_here hS) fun start hstart => keeps_bind keeps_advance fun _ _ => ?_
      refine keeps_bind (keeps_name hS) fun (name, _) _ => ?_
      refine keeps_bind (keeps_discard (keeps_expect hS)) fun _ _ => ?_
      refine keeps_bind (keeps_value hS fuel) fun sequence hsequence => ?_
      refine keeps_bind (keeps_block hS fuel) fun body hbody => keeps_pure ?_
      exact Expr.lies_each.2 ⟨hS.merge hstart hbody.span, hsequence, hbody⟩
    · exact keeps_value hS fuel

theorem keeps_value (hS : Span.Places S) : ∀ fuel, Keeps S (Expr.Lies S) (value fuel)
  | 0 => keeps_outOfFuel
  | fuel + 1 => by
    unfold value
    refine keeps_bind (keeps_arrow hS fuel) fun target htarget => ?_
    refine keeps_bind keeps_peek fun token _ => ?_
    split
    · refine keeps_bind keeps_advance fun _ _ => ?_
      refine keeps_bind (keeps_value hS fuel) fun stored hstored => keeps_pure ?_
      exact Expr.lies_write.2 ⟨hS.merge htarget.span hstored.span, hstored⟩
    · exact keeps_pure htarget

theorem keeps_arrow (hS : Span.Places S) : ∀ fuel, Keeps S (Expr.Lies S) (arrow fuel)
  | 0 => keeps_outOfFuel
  | fuel + 1 => by
    unfold arrow
    exact keeps_bind (keeps_term hS fuel) fun _ h => keeps_arrows hS fuel h

theorem keeps_arrows (hS : Span.Places S) : ∀ fuel {receiver : Expr}, receiver.Lies S →
    Keeps S (Expr.Lies S) (arrows fuel receiver)
  | 0, _, _ => keeps_outOfFuel
  | fuel + 1, receiver, h => by
    unfold arrows
    refine keeps_bind keeps_peek fun token _ => ?_
    split
    · refine keeps_bind keeps_advance fun _ _ => keeps_bind (keeps_name hS) fun (name, _) _ => ?_
      refine keeps_bind (keeps_tuple hS fuel) fun (args, span) hargs => keeps_arrows hS fuel ?_
      exact Expr.lies_call.2 ⟨hS.merge h.span hargs.1,
        Expr.allLie_iff.2 (List.forall_mem_cons.2 ⟨h, hargs.2⟩)⟩
    · exact keeps_pure h

theorem keeps_term (hS : Span.Places S) : ∀ fuel, Keeps S (Expr.Lies S) (term fuel)
  | 0 => keeps_outOfFuel
  | fuel + 1 => by
    unfold term
    exact keeps_bind (keeps_factor hS fuel) fun _ h => keeps_terms hS fuel h

theorem keeps_terms (hS : Span.Places S) : ∀ fuel {left : Expr}, left.Lies S →
    Keeps S (Expr.Lies S) (terms fuel left)
  | 0, _, _ => keeps_outOfFuel
  | fuel + 1, left, h => by
    unfold terms
    refine keeps_bind keeps_peek fun token _ => ?_
    split
    · refine keeps_bind keeps_advance fun _ _ => ?_
      exact keeps_bind (keeps_factor hS fuel) fun right hright =>
        keeps_terms hS fuel (lies_combine hS h hright)
    · exact keeps_pure h

theorem keeps_factor (hS : Span.Places S) : ∀ fuel, Keeps S (Expr.Lies S) (factor fuel)
  | 0 => keeps_outOfFuel
  | fuel + 1 => by
    unfold factor
    exact keeps_bind (keeps_invocation hS fuel) fun _ h => keeps_factors hS fuel h

theorem keeps_factors (hS : Span.Places S) : ∀ fuel {left : Expr}, left.Lies S →
    Keeps S (Expr.Lies S) (factors fuel left)
  | 0, _, _ => keeps_outOfFuel
  | fuel + 1, left, h => by
    unfold factors
    refine keeps_bind keeps_peek fun token _ => ?_
    split
    · refine keeps_bind keeps_advance fun _ _ => ?_
      exact keeps_bind (keeps_invocation hS fuel) fun right hright =>
        keeps_factors hS fuel (lies_combine hS h hright)
    · exact keeps_pure h

theorem keeps_invocation (hS : Span.Places S) : ∀ fuel, Keeps S (Expr.Lies S) (invocation fuel)
  | 0 => keeps_outOfFuel
  | fuel + 1 => by
    unfold invocation
    refine keeps_bind (keeps_primary hS) fun base hbase => ?_
    refine keeps_bind keeps_peek fun token _ => ?_
    split
    · refine keeps_bind (keeps_tuple hS fuel) fun (args, span) hargs => keeps_pure ?_
      exact Expr.lies_call.2 ⟨hS.merge hbase.span hargs.1, Expr.allLie_iff.2 hargs.2⟩
    · exact keeps_pure hbase

theorem keeps_tuple (hS : Span.Places S) : ∀ fuel,
    Keeps S (fun r => S r.2 ∧ ∀ e ∈ r.1, e.Lies S) (tuple fuel)
  | 0 => keeps_outOfFuel
  | fuel + 1 => by
    unfold tuple
    refine keeps_bind (keeps_expect hS) fun start hstart => ?_
    refine keeps_bind (keeps_arguments hS fuel (by simp)) fun args hargs => ?_
    exact keeps_bind (keeps_expect hS) fun stop hstop =>
      keeps_pure ⟨hS.merge hstart hstop, hargs⟩

theorem keeps_arguments (hS : Span.Places S) : ∀ fuel {read : List Expr}, (∀ e ∈ read, e.Lies S) →
    Keeps S (fun es => ∀ e ∈ es, e.Lies S) (arguments fuel read)
  | 0, _, _ => keeps_outOfFuel
  | fuel + 1, read, h => by
    unfold arguments
    refine keeps_bind keeps_peek fun token _ => ?_
    split
    · exact keeps_pure (by simpa using h)
    · refine keeps_bind (keeps_value hS fuel) fun argument hargument => ?_
      exact keeps_bind (keeps_separator hS) fun _ _ =>
        keeps_arguments hS fuel (List.forall_mem_cons.2 ⟨hargument, h⟩)

end

theorem keeps_schema (hS : Span.Places S) (fuel : Nat) : Keeps S (Schema.Lies S) (schema fuel) := by
  have tail {start : Span} (hstart : S start) (name? : Option String) : Keeps S (Schema.Lies S) (do
      discard (expect (.mark .openParen))
      let params ← params fuel []
      discard (expect (.mark .closeParen))
      let returns ← result
      let body ← block fuel
      discard (expect .endOfInput)
      return ⟨name?, params, returns, body, start.merge body.span⟩) := by
    refine keeps_bind (keeps_discard (keeps_expect hS)) fun _ _ => ?_
    refine keeps_bind (keeps_params hS fuel (by simp)) fun params hparams => ?_
    refine keeps_bind (keeps_discard (keeps_expect hS)) fun _ _ => ?_
    refine keeps_bind (keeps_result hS) fun returns _ => ?_
    refine keeps_bind (keeps_block hS fuel) fun body hbody => ?_
    refine keeps_bind (keeps_discard (keeps_expect hS)) fun _ _ => keeps_pure ?_
    exact ⟨hS.merge hstart hbody.span, hparams, hbody⟩
  unfold schema
  refine keeps_bind (keeps_expect hS) fun start hstart => keeps_bind keeps_peek fun token _ => ?_
  simp only
  split
  · exact keeps_bind (keeps_name hS) fun _ _ => keeps_bind (keeps_pure trivial) fun _ (_ : True) =>
      tail hstart _
  · exact keeps_bind (keeps_pure trivial) fun _ (_ : True) => tail hstart _

end Parser

namespace Schema

variable {S : Span → Prop} {tokens : List SpannedToken}

theorem parse?_eq (fuel : Nat) (tokens : List SpannedToken) :
    parse? fuel tokens = Option.map (Except.map Prod.fst) (Parser.schema fuel tokens) := by
  change ((fun r : Schema × List SpannedToken => r.1) <$> Parser.schema fuel tokens :
    ExceptT CompileError Option Schema) = _
  cases Parser.schema fuel tokens with
  | none => rfl
  | some r => cases r <;> rfl

/-- What is read from tokens lies where they do, and complaints are about where they are. -/
theorem parse_keeps (hS : Span.Places S) (htokens : ∀ t ∈ tokens, S t.span) :
    FailsAt S (parse tokens) ∧ ∀ schema, parse tokens = .ok schema → schema.Lies S := by
  have hkeeps := Parser.keeps_schema hS (Parser.fuelFor tokens) tokens htokens
  unfold parse
  rw [parse?_eq]
  cases hx : Parser.schema (Parser.fuelFor tokens) tokens with
  | none =>
    refine ⟨failsAt_refuse ?_, fun _ h => nomatch h⟩
    rw [List.getLastD_eq_getLast?]
    cases hlast : tokens.getLast? with
    | none => exact hS.none
    | some t => exact htokens t (List.mem_of_getLast? hlast)
  | some r =>
    rw [hx] at hkeeps
    cases r with
    | error e => exact ⟨fun _ h => hkeeps.1 _ (by cases h; rfl), fun _ h => nomatch h⟩
    | ok r =>
      refine ⟨fun _ h => (nomatch h), ?_⟩
      rintro _ ⟨⟩
      exact (hkeeps.2 r.1 r.2 rfl).2

/-- Reading never complains of a name. -/
theorem kind_of_ofText {text : String} {e : CompileError} (h : ofText text = .error e) :
    e.kind ≠ .duplicateSchema := by
  rcases bind_eq_error.1 h with h | ⟨tokens, _, h⟩
  · rw [Lexer.kind_of_tokensFrom h]
    decide
  · exact ((parse_keeps (S := fun _ => True) ⟨trivial, fun _ _ => trivial⟩
      fun _ _ => trivial).1 e h).kind

theorem kind_of_ofSource {name text : String} {e : CompileError}
    (h : ofSource name text = .error e) : e.kind ≠ .duplicateSchema := by
  obtain ⟨_, htext, rfl⟩ := mapError_eq_error.1 h
  have hkind := kind_of_ofText htext
  exact hkind

end Schema

end EventScript
