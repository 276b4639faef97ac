import EventScript.Proofs.Grammar.Sound
import EventScript.Proofs.ParserCorrectness
import EventScript.Proofs.Submission
import EventScript.Proofs.Token.Scanning

/-!
What a schema assigns. The names of variables are words of the source, so what messages call a slot
without a name is the name of no variable.
-/
namespace EventScript

namespace Expr

mutual

/-- The tree assigns the variable, or binds it to the items of a list. -/
def Assigns (name : String) : Expr → Prop
  | .number _ _ | .string _ _ | .text _ _ | .bool _ _ | .read _ _ => False
  | .write _ var value => var = name ∨ value.Assigns name
  | .arithmetic _ _ left right => left.Assigns name ∨ right.Assigns name
  | .branch _ condition thenBody none => condition.Assigns name ∨ thenBody.Assigns name
  | .branch _ condition thenBody (some elseBody) =>
    condition.Assigns name ∨ thenBody.Assigns name ∨ elseBody.Assigns name
  | .loop _ count body => count.Assigns name ∨ body.Assigns name
  | .each _ var sequence body => var = name ∨ sequence.Assigns name ∨ body.Assigns name
  | .block _ statements => AnyAssigns name statements
  | .bound _ _ args | .call _ _ args _ => AnyAssigns name args

def AnyAssigns (name : String) : List Expr → Prop
  | [] => False
  | e :: es => e.Assigns name ∨ AnyAssigns name es

end

mutual

/-- Places do not matter for what is assigned. -/
theorem assigns_unspanned {name : String} : ∀ e : Expr, e.unspanned.Assigns name ↔ e.Assigns name
  | .number _ _ | .string _ _ | .text _ _ | .bool _ _ | .read _ _ => Iff.rfl
  | .write _ _ value => or_congr Iff.rfl (assigns_unspanned value)
  | .arithmetic _ _ left right => or_congr (assigns_unspanned left) (assigns_unspanned right)
  | .branch _ condition thenBody none =>
    or_congr (assigns_unspanned condition) (assigns_unspanned thenBody)
  | .branch _ condition thenBody (some elseBody) => or_congr (assigns_unspanned condition)
    (or_congr (assigns_unspanned thenBody) (assigns_unspanned elseBody))
  | .loop _ count body => or_congr (assigns_unspanned count) (assigns_unspanned body)
  | .each _ _ sequence body =>
    or_congr Iff.rfl (or_congr (assigns_unspanned sequence) (assigns_unspanned body))
  | .block _ statements => anyAssigns_allUnspanned statements
  | .bound _ _ args | .call _ _ args _ => anyAssigns_allUnspanned args

theorem anyAssigns_allUnspanned {name : String} :
    ∀ es : List Expr, AnyAssigns name (allUnspanned es) ↔ AnyAssigns name es
  | [] => Iff.rfl
  | e :: es => or_congr (assigns_unspanned e) (anyAssigns_allUnspanned es)

end

end Expr

/-! ### Names as tokens -/

namespace Grammar

variable {name : String}

theorem Primary.not_assigns (p : Primary) : ¬p.tree.Assigns name := by
  cases p <;> exact id

mutual

theorem Value.mem_tokens : ∀ {d : Value}, d.tree.Assigns name → .ident name ∈ d.tokens
  | .assign _ stored, h => by
    rw [Value.tokens, List.mem_cons, List.mem_cons]
    rcases h with rfl | h
    · exact .inl rfl
    · exact .inr (.inr (Value.mem_tokens (d := stored) h))
  | .arrow a, h => Arrow.mem_tokens (d := a) h

theorem Arrow.mem_tokens : ∀ {d : Arrow}, d.tree.Assigns name → .ident name ∈ d.tokens
  | .mk receiver calls, h => by
    rw [Arrow.tokens, List.mem_append]
    rcases Arrows.mem_tokens (d := calls) h with h | h
    · exact .inl (Term.mem_tokens h)
    · exact .inr h

theorem Arrows.mem_tokens : ∀ {d : Arrows} {receiver : Expr},
    (d.tree receiver).Assigns name → receiver.Assigns name ∨ .ident name ∈ d.tokens
  | .done, _, h => .inl h
  | .call _ args more, _, h => by
    rw [Arrows.tokens, List.mem_cons, List.mem_cons, List.mem_cons, List.mem_append, List.mem_cons]
    rcases Arrows.mem_tokens (d := more) h with (h | h) | h
    · exact .inl h
    · exact .inr (.inr (.inr (.inr (.inl (Arguments.mem_tokens h)))))
    · exact .inr (.inr (.inr (.inr (.inr (.inr h)))))

theorem Term.mem_tokens : ∀ {d : Term}, d.tree.Assigns name → .ident name ∈ d.tokens
  | .mk first more, h => by
    rw [Term.tokens, List.mem_append]
    rcases Terms.mem_tokens (d := more) h with h | h
    · exact .inl (Factor.mem_tokens h)
    · exact .inr h

theorem Terms.mem_tokens : ∀ {d : Terms} {left : Expr},
    (d.tree left).Assigns name → left.Assigns name ∨ .ident name ∈ d.tokens
  | .done, _, h => .inl h
  | .step _ right more, _, h => by
    rw [Terms.tokens, List.mem_cons, List.mem_append]
    rcases Terms.mem_tokens (d := more) h with (h | h) | h
    · exact .inl h
    · exact .inr (.inr (.inl (Factor.mem_tokens h)))
    · exact .inr (.inr (.inr h))

theorem Factor.mem_tokens : ∀ {d : Factor}, d.tree.Assigns name → .ident name ∈ d.tokens
  | .mk first more, h => by
    rw [Factor.tokens, List.mem_append]
    rcases Factors.mem_tokens (d := more) h with h | h
    · exact .inl (Invocation.mem_tokens h)
    · exact .inr h

theorem Factors.mem_tokens : ∀ {d : Factors} {left : Expr},
    (d.tree left).Assigns name → left.Assigns name ∨ .ident name ∈ d.tokens
  | .done, _, h => .inl h
  | .step _ right more, _, h => by
    rw [Factors.tokens, List.mem_cons, List.mem_append]
    rcases Factors.mem_tokens (d := more) h with (h | h) | h
    · exact .inl h
    · exact .inr (.inr (.inl (Invocation.mem_tokens h)))
    · exact .inr (.inr (.inr h))

theorem Invocation.mem_tokens : ∀ {d : Invocation}, d.tree.Assigns name → .ident name ∈ d.tokens
  | .primary p, h => absurd h p.not_assigns
  | .call _ args, h => by
    rw [Invocation.tokens, List.mem_cons, List.mem_cons, List.mem_append]
    exact .inr (.inr (.inl (Arguments.mem_tokens (d := args) h)))

theorem Arguments.mem_tokens : ∀ {d : Arguments},
    Expr.AnyAssigns name d.trees → .ident name ∈ d.tokens
  | .none, h => h.elim
  | .last v, h => Value.mem_tokens (d := v) (h.resolve_right id)
  | .more v rest, h => by
    rw [Arguments.tokens, List.mem_append, List.mem_cons]
    rcases h with h | h
    · exact .inl (Value.mem_tokens (d := v) h)
    · exact .inr (.inr (Arguments.mem_tokens (d := rest) h))

end

theorem mem_braced {t : Token} {statements : List Token} (h : t ∈ statements) :
    t ∈ braced statements :=
  List.mem_cons_of_mem _ (List.mem_append_left _ h)

mutual

theorem Statement.mem_tokens : ∀ {d : Statement}, d.tree.Assigns name → .ident name ∈ d.tokens
  | .loop count body, h => by
    rw [Statement.tokens, List.mem_cons, List.mem_append]
    rcases h with h | h
    · exact .inr (.inl (Value.mem_tokens h))
    · exact .inr (.inr (mem_braced (Statements.mem_tokens (d := body) h)))
  | .branch condition thenBody, h => by
    rw [Statement.tokens, List.mem_cons, List.mem_append]
    rcases h with h | h
    · exact .inr (.inl (Value.mem_tokens h))
    · exact .inr (.inr (mem_braced (Statements.mem_tokens (d := thenBody) h)))
  | .branchElse condition thenBody elseBody, h => by
    rw [Statement.tokens, List.mem_cons, List.mem_append, List.mem_append, List.mem_cons]
    rcases h with h | h | h
    · exact .inr (.inl (Value.mem_tokens h))
    · exact .inr (.inr (.inl (mem_braced (Statements.mem_tokens (d := thenBody) h))))
    · exact .inr (.inr (.inr (.inr (mem_braced (Statements.mem_tokens (d := elseBody) h)))))
  | .each _ sequence body, h => by
    rw [Statement.tokens, List.mem_cons, List.mem_cons, List.mem_cons, List.mem_append]
    rcases h with rfl | h | h
    · exact .inr (.inl rfl)
    · exact .inr (.inr (.inr (.inl (Value.mem_tokens h))))
    · exact .inr (.inr (.inr (.inr (mem_braced (Statements.mem_tokens (d := body) h)))))
  | .value v, h => Value.mem_tokens (d := v) h

theorem Statements.mem_tokens : ∀ {d : Statements},
    Expr.AnyAssigns name d.trees → .ident name ∈ d.tokens
  | .done, h => h.elim
  | .step s more, h => by
    rw [Statements.tokens, List.mem_append]
    rcases h with h | h
    · exact .inl (Statement.mem_tokens (d := s) h)
    · exact .inr (Statements.mem_tokens (d := more) h)

end

/-- What a schema assigns is named by one of its tokens. -/
theorem Schema.mem_tokens {d : Schema} (h : d.tree.body.Assigns name) : .ident name ∈ d.tokens := by
  have hbody := mem_braced (Statements.mem_tokens (d := d.body) h)
  rw [Schema.tokens, List.mem_cons, List.mem_append, List.mem_cons, List.mem_append, List.mem_cons,
    List.mem_append]
  exact .inr (.inr (.inr (.inr (.inr (.inr hbody)))))

end Grammar

/-! ### Names as words -/

/-- The name is made of the characters that words are made of. -/
def IsWord (name : String) : Prop := ∀ c ∈ name.toList, Lexer.isIdentPart c = true

namespace Lexer

variable {pos stop : Nat} {c : Char} {cs rest : List Char} {token : Token}

/-- What scanners make: no end of input, and names that are words. -/
def Scanned (t : Token) : Prop := t ≠ .endOfInput ∧ ∀ name, t = .ident name → IsWord name

theorem scanned_scanWord (pos : Nat) (cs : List Char) (hc : isIdentPart c = true) :
    Scanned (scanWord pos c cs).1 := by
  simp only [scanWord]
  cases Keyword.ofText? (String.ofList (c :: cs.takeWhile isIdentPart)) with
  | some k => exact ⟨by simp, by simp⟩
  | none =>
    refine ⟨by simp, ?_⟩
    rintro _ ⟨⟩ d hd
    rw [String.toList_ofList] at hd
    rcases List.mem_cons.1 hd with rfl | hd
    · exact hc
    · exact List.mem_takeWhile_imp hd

theorem scanned_scanMark (pos : Nat) (m : Mark) (cs : List Char) :
    Scanned (scanMark pos m cs).1 := by
  unfold scanMark
  split <;> exact ⟨nofun, nofun⟩

theorem scanned_scanToken (h : scanToken pos c cs = .ok (token, stop, rest)) : Scanned token := by
  unfold scanToken at h
  split at h
  · have hmark := scanned_scanMark pos ‹Mark› cs
    rwa [Except.ok.inj h] at hmark
  split at h
  · obtain ⟨⟨_, _, _⟩, _, heq⟩ := map_eq_ok.1 h
    cases heq
    exact ⟨nofun, nofun⟩
  split at h
  · obtain ⟨⟨_, _, _⟩, _, heq⟩ := map_eq_ok.1 h
    cases heq
    exact ⟨nofun, nofun⟩
  split at h
  · cases h
    exact ⟨nofun, nofun⟩
  split at h
  · rename_i hc
    have hword := scanned_scanWord pos cs (isIdentPart_of_isIdentStart hc)
    rwa [Except.ok.inj h] at hword
  · cases h

/-- Only the last token is the end of input, and names are words. -/
theorem of_tokensFrom {read tokens : List SpannedToken} (h : tokensFrom pos cs read = .ok tokens)
    (hread : ∀ t ∈ read, Scanned t.token) :
    ∃ w, tokens.map (·.token) = w ++ [.endOfInput] ∧ ∀ t ∈ w, Scanned t := by
  fun_induction tokensFrom pos cs read with
  | case1 _ _ read =>
    cases h
    refine ⟨read.reverse.map (·.token), by simp, ?_⟩
    simpa only [List.forall_mem_map, List.mem_reverse] using hread
  | case2 => cases h
  | case3 _ _ _ _ _ _ _ _ _ _ hscan ih =>
    exact ih h (List.forall_mem_cons.2 ⟨scanned_scanToken hscan, hread⟩)

end Lexer

variable {name text : String}

theorem not_isWord_temporary : ¬IsWord "<temporary>" := fun h => by
  have := h '<' (by decide)
  revert this
  decide

/-- The variables of a schema read from text are named by words. -/
theorem Schema.isWord_of_ofText {s : Schema} (hs : ofText text = .ok s)
    (h : s.body.Assigns name) : IsWord name := by
  obtain ⟨tokens, htokens, hparse⟩ := bind_eq_ok.1 hs
  obtain ⟨w, hw, hscanned⟩ := Lexer.of_tokensFrom htokens (by simp)
  obtain ⟨d, rfl, htree⟩ := exists_of_parse hw (fun hend => (hscanned _ hend).1 rfl) hparse
  refine (hscanned _ (Grammar.Schema.mem_tokens ?_)).2 name rfl
  rw [← htree]
  exact (Expr.assigns_unspanned s.body).2 h

theorem Submission.isWord_of_definitions {source : Submission} {ds : List Definition}
    {d : Definition} (h : source.definitions = .ok ds) (hd : d ∈ ds)
    (hname : d.schema.body.Assigns name) : IsWord name := by
  obtain ⟨text, htext⟩ := exists_text_of_definitions h d hd
  exact Schema.isWord_of_ofText htext hname

end EventScript
