import EventScript.Proofs.Grammar

/-!
The grammar is not ambiguous. Each token with which a level of values could go on binds tighter than
those with which looser levels do, so the token that comes next decides how a derivation goes on.
-/
namespace EventScript

/-- How tightly a token binds that goes on a value: zero if no value goes on with it. -/
def Token.binding : Token → Nat
  | .mark .equals => 1
  | .mark .arrow => 2
  | .mark .plus | .mark .star => 3
  | .mark .minus | .mark .slash => 4
  | .mark .openParen => 5
  | _ => 0

namespace Grammar

/-- A level does not go on with what comes next. -/
def Stops (level : Nat) (w : List Token) : Prop := ∀ t ∈ w.head?, t.binding < level

/-- A value can begin with the token. -/
def StartsValue : Token → Prop
  | .number _ | .string _ | .text _ | .ident _ => True
  | _ => False

section

variable {level level' : Nat} {t : Token} {w : List Token}

@[simp] theorem stops_cons : Stops level (t :: w) ↔ t.binding < level := by simp [Stops]

theorem Stops.mono (h : Stops level w) (hle : level ≤ level') : Stops level' w :=
  fun t ht => Nat.lt_of_lt_of_le (h t ht) hle

theorem not_stops_cons (h : level ≤ t.binding) : ¬Stops level (t :: w) := fun hstops =>
  Nat.not_le_of_lt (stops_cons.1 hstops) h

end

/-! ### What comes first -/

theorem Primary.startsValue (p : Primary) : StartsValue p.token := by
  cases p with
  | bool b => cases b <;> trivial
  | number | string | text | name => trivial

/-- The tokens begin as values do. -/
def BeginsValue (w : List Token) : Prop := ∃ t x, w = t :: x ∧ StartsValue t

theorem BeginsValue.append {w x : List Token} (h : BeginsValue w) : BeginsValue (w ++ x) := by
  obtain ⟨t, v, rfl, ht⟩ := h
  exact ⟨t, v ++ x, List.cons_append, ht⟩

theorem BeginsValue.length_pos {w : List Token} (h : BeginsValue w) : 0 < w.length := by
  obtain ⟨t, x, rfl, _⟩ := h
  exact Nat.succ_pos _

theorem Invocation.begins : ∀ d : Invocation, BeginsValue d.tokens
  | .primary p => ⟨_, _, by rw [tokens], p.startsValue⟩
  | .call name _ => ⟨.ident name.1, _, by rw [tokens], trivial⟩

theorem Factor.begins : ∀ d : Factor, BeginsValue d.tokens
  | .mk first _ => first.begins.append

theorem Term.begins : ∀ d : Term, BeginsValue d.tokens
  | .mk first _ => first.begins.append

theorem Arrow.begins : ∀ d : Arrow, BeginsValue d.tokens
  | .mk receiver _ => receiver.begins.append

theorem Value.begins : ∀ d : Value, BeginsValue d.tokens
  | .assign name _ => ⟨.ident name.1, _, by rw [tokens], trivial⟩
  | .arrow a => a.begins

/-- No value begins with a token of another kind. -/
theorem Value.ne_cons {d : Value} {t : Token} {w x : List Token} (ht : ¬StartsValue t) :
    d.tokens ++ w ≠ t :: x := by
  obtain ⟨u, v, hv, hu⟩ := d.begins
  rw [hv, List.cons_append]
  intro h
  injection h with h
  exact ht (h ▸ hu)

/-! ### What goes on -/

section

variable {w : List Token}

theorem Factors.stops (d : Factors) (h : Stops 4 w) : Stops 5 (d.tokens ++ w) := by
  cases d with
  | done => exact h.mono (by decide)
  | step op right more =>
    rw [tokens, List.cons_append, stops_cons]
    cases op <;> decide

theorem Terms.stops (d : Terms) (h : Stops 3 w) : Stops 4 (d.tokens ++ w) := by
  cases d with
  | done => exact h.mono (by decide)
  | step op right more =>
    rw [tokens, List.cons_append, stops_cons]
    cases op <;> decide

theorem Arrows.stops (d : Arrows) (h : Stops 2 w) : Stops 3 (d.tokens ++ w) := by
  cases d with
  | done => exact h.mono (by decide)
  | call name args more =>
    rw [tokens, List.cons_append, stops_cons]
    decide

end

/-! ### Words -/

/-- The primary that a token is. -/
def Primary.ofToken? : Token → Option Primary
  | .number n => some (.number n)
  | .string s => some (.string s)
  | .text markup => some (.text markup)
  | .ident word =>
    if htrue : word = "true" then some (.bool true)
    else if hfalse : word = "false" then some (.bool false)
    else some (.name ⟨word, htrue, hfalse⟩)
  | _ => none

theorem Primary.ofToken?_token (p : Primary) : ofToken? p.token = some p := by
  cases p with
  | number | string | text => rfl
  | bool b => cases b <;> rfl
  | name name =>
    obtain ⟨name, htrue, hfalse⟩ := name
    simp [token, ofToken?, htrue, hfalse]

theorem Primary.token_injective {p q : Primary} (h : p.token = q.token) : p = q := by
  have hp := p.ofToken?_token
  rw [h, q.ofToken?_token] at hp
  exact (Option.some.inj hp).symm

theorem LooseOperator.token_injective {p q : LooseOperator} (h : p.token = q.token) : p = q := by
  cases p <;> cases q <;> first | rfl | cases h

theorem TightOperator.token_injective {p q : TightOperator} (h : p.token = q.token) : p = q := by
  cases p <;> cases q <;> first | rfl | cases h

/-- Keywords are different words. -/
theorem TypeName.token_injective {s t : TypeName} (h : s.token = t.token) : s = t := by
  obtain ⟨s, hs⟩ := s
  obtain ⟨t, ht⟩ := t
  have hinj : ∀ s ∈ StaticType.keywords, ∀ t ∈ StaticType.keywords, s.name = t.name → s = t := by
    decide
  exact Subtype.ext (hinj s hs t ht (Token.ident.inj h))

/-! ### Values -/

/-- No arrow goes on with an equals sign behind a name. -/
theorem Arrow.eq_of_equals {a : Arrow} {t : Token} {w x : List Token}
    (h : a.tokens ++ w = t :: .mark .equals :: x) : w = .mark .equals :: x := by
  obtain ⟨⟨⟨first, factors⟩, terms⟩, calls⟩ := a
  simp only [Arrow.tokens, Term.tokens, Factor.tokens, List.append_assoc] at h
  cases first with
  | call => simp [Invocation.tokens] at h
  | primary p =>
    simp only [Invocation.tokens, List.cons_append, List.nil_append, List.cons.injEq] at h
    have h := h.2
    cases factors with
    | step op => cases op <;> simp [Factors.tokens, TightOperator.token] at h
    | done =>
      cases terms with
      | step op => cases op <;> simp [Factors.tokens, Terms.tokens, LooseOperator.token] at h
      | done =>
        cases calls with
        | call => simp [Factors.tokens, Terms.tokens, Arrows.tokens] at h
        | done => exact h

mutual

theorem Value.unique : ∀ {d d' : Value} {w w' : List Token}, Stops 1 w → Stops 1 w' →
    d.tokens ++ w = d'.tokens ++ w' → d = d' ∧ w = w'
  | .assign name stored, .assign name' stored', w, w', hw, hw', h => by
    rw [Value.tokens, Value.tokens] at h
    injection h with hname h
    injection hname with hname
    injection h with _ h
    obtain ⟨rfl, rfl⟩ := Value.unique hw hw' h
    obtain rfl : name = name' := Subtype.ext hname
    exact ⟨rfl, rfl⟩
  | .assign name stored, .arrow a, w, w', hw, hw', h => by
    rw [Value.tokens, Value.tokens] at h
    rw [Arrow.eq_of_equals h.symm] at hw'
    exact absurd hw' (not_stops_cons (by decide))
  | .arrow a, .assign name stored, w, w', hw, hw', h => by
    rw [Value.tokens, Value.tokens] at h
    rw [Arrow.eq_of_equals h] at hw
    exact absurd hw (not_stops_cons (by decide))
  | .arrow a, .arrow a', w, w', hw, hw', h => by
    rw [Value.tokens, Value.tokens] at h
    obtain ⟨rfl, rfl⟩ := Arrow.unique (hw.mono (by decide)) (hw'.mono (by decide)) h
    exact ⟨rfl, rfl⟩

theorem Arrow.unique : ∀ {d d' : Arrow} {w w' : List Token}, Stops 2 w → Stops 2 w' →
    d.tokens ++ w = d'.tokens ++ w' → d = d' ∧ w = w'
  | .mk receiver calls, .mk receiver' calls', w, w', hw, hw', h => by
    rw [Arrow.tokens, Arrow.tokens, List.append_assoc, List.append_assoc] at h
    obtain ⟨rfl, hrest⟩ := Term.unique (calls.stops hw) (calls'.stops hw') h
    obtain ⟨rfl, rfl⟩ := Arrows.unique hw hw' hrest
    exact ⟨rfl, rfl⟩

theorem Arrows.unique : ∀ {d d' : Arrows} {w w' : List Token}, Stops 2 w → Stops 2 w' →
    d.tokens ++ w = d'.tokens ++ w' → d = d' ∧ w = w'
  | .done, .done, w, w', _, _, h => ⟨rfl, h⟩
  | .done, .call name args more, w, w', hw, _, h => by
    rw [Arrows.tokens, Arrows.tokens, List.nil_append] at h
    rw [h] at hw
    exact absurd hw (not_stops_cons (by decide))
  | .call name args more, .done, w, w', _, hw', h => by
    rw [Arrows.tokens, Arrows.tokens, List.nil_append] at h
    rw [← h] at hw'
    exact absurd hw' (not_stops_cons (by decide))
  | .call name args more, .call name' args' more', w, w', hw, hw', h => by
    simp only [Arrows.tokens, List.cons_append, List.append_assoc, List.cons.injEq, true_and,
      Token.ident.injEq] at h
    obtain ⟨rfl, h⟩ := h
    obtain ⟨rfl, hrest⟩ := Arguments.unique h
    obtain ⟨rfl, rfl⟩ := Arrows.unique hw hw' hrest
    exact ⟨rfl, rfl⟩

theorem Term.unique : ∀ {d d' : Term} {w w' : List Token}, Stops 3 w → Stops 3 w' →
    d.tokens ++ w = d'.tokens ++ w' → d = d' ∧ w = w'
  | .mk first more, .mk first' more', w, w', hw, hw', h => by
    rw [Term.tokens, Term.tokens, List.append_assoc, List.append_assoc] at h
    obtain ⟨rfl, hrest⟩ := Factor.unique (more.stops hw) (more'.stops hw') h
    obtain ⟨rfl, rfl⟩ := Terms.unique hw hw' hrest
    exact ⟨rfl, rfl⟩

theorem Terms.unique : ∀ {d d' : Terms} {w w' : List Token}, Stops 3 w → Stops 3 w' →
    d.tokens ++ w = d'.tokens ++ w' → d = d' ∧ w = w'
  | .done, .done, w, w', _, _, h => ⟨rfl, h⟩
  | .done, .step op right more, w, w', hw, _, h => by
    rw [Terms.tokens, Terms.tokens, List.nil_append] at h
    rw [h] at hw
    exact absurd hw (not_stops_cons (by cases op <;> decide))
  | .step op right more, .done, w, w', _, hw', h => by
    rw [Terms.tokens, Terms.tokens, List.nil_append] at h
    rw [← h] at hw'
    exact absurd hw' (not_stops_cons (by cases op <;> decide))
  | .step op right more, .step op' right' more', w, w', hw, hw', h => by
    simp only [Terms.tokens, List.cons_append, List.append_assoc, List.cons.injEq] at h
    obtain ⟨hop, h⟩ := h
    obtain rfl := LooseOperator.token_injective hop
    obtain ⟨rfl, hrest⟩ := Factor.unique (more.stops hw) (more'.stops hw') h
    obtain ⟨rfl, rfl⟩ := Terms.unique hw hw' hrest
    exact ⟨rfl, rfl⟩

theorem Factor.unique : ∀ {d d' : Factor} {w w' : List Token}, Stops 4 w → Stops 4 w' →
    d.tokens ++ w = d'.tokens ++ w' → d = d' ∧ w = w'
  | .mk first more, .mk first' more', w, w', hw, hw', h => by
    rw [Factor.tokens, Factor.tokens, List.append_assoc, List.append_assoc] at h
    obtain ⟨rfl, hrest⟩ := Invocation.unique (more.stops hw) (more'.stops hw') h
    obtain ⟨rfl, rfl⟩ := Factors.unique hw hw' hrest
    exact ⟨rfl, rfl⟩

theorem Factors.unique : ∀ {d d' : Factors} {w w' : List Token}, Stops 4 w → Stops 4 w' →
    d.tokens ++ w = d'.tokens ++ w' → d = d' ∧ w = w'
  | .done, .done, w, w', _, _, h => ⟨rfl, h⟩
  | .done, .step op right more, w, w', hw, _, h => by
    rw [Factors.tokens, Factors.tokens, List.nil_append] at h
    rw [h] at hw
    exact absurd hw (not_stops_cons (by cases op <;> decide))
  | .step op right more, .done, w, w', _, hw', h => by
    rw [Factors.tokens, Factors.tokens, List.nil_append] at h
    rw [← h] at hw'
    exact absurd hw' (not_stops_cons (by cases op <;> decide))
  | .step op right more, .step op' right' more', w, w', hw, hw', h => by
    simp only [Factors.tokens, List.cons_append, List.append_assoc, List.cons.injEq] at h
    obtain ⟨hop, h⟩ := h
    obtain rfl := TightOperator.token_injective hop
    obtain ⟨rfl, hrest⟩ := Invocation.unique (more.stops hw) (more'.stops hw') h
    obtain ⟨rfl, rfl⟩ := Factors.unique hw hw' hrest
    exact ⟨rfl, rfl⟩

theorem Invocation.unique : ∀ {d d' : Invocation} {w w' : List Token}, Stops 5 w → Stops 5 w' →
    d.tokens ++ w = d'.tokens ++ w' → d = d' ∧ w = w'
  | .primary p, .primary p', w, w', _, _, h => by
    simp only [Invocation.tokens, List.cons_append, List.nil_append, List.cons.injEq] at h
    obtain ⟨hp, rfl⟩ := h
    obtain rfl := Primary.token_injective hp
    exact ⟨rfl, rfl⟩
  | .primary p, .call name args, w, w', hw, _, h => by
    simp only [Invocation.tokens, List.cons_append, List.nil_append, List.cons.injEq] at h
    rw [h.2] at hw
    exact absurd hw (not_stops_cons (by decide))
  | .call name args, .primary p, w, w', _, hw', h => by
    simp only [Invocation.tokens, List.cons_append, List.nil_append, List.cons.injEq] at h
    rw [← h.2] at hw'
    exact absurd hw' (not_stops_cons (by decide))
  | .call name args, .call name' args', w, w', _, _, h => by
    simp only [Invocation.tokens, List.cons_append, List.append_assoc, List.nil_append,
      List.cons.injEq, true_and, Token.ident.injEq] at h
    obtain ⟨hname, h⟩ := h
    obtain rfl : name = name' := Subtype.ext hname
    obtain ⟨rfl, rfl⟩ := Arguments.unique h
    exact ⟨rfl, rfl⟩

theorem Arguments.unique : ∀ {d d' : Arguments} {w w' : List Token},
    d.tokens ++ .mark .closeParen :: w = d'.tokens ++ .mark .closeParen :: w' → d = d' ∧ w = w'
  | .none, .none, w, w', h => ⟨rfl, List.tail_eq_of_cons_eq h⟩
  | .none, .last v, w, w', h => by
    simp only [Arguments.tokens, List.nil_append] at h
    exact absurd h.symm (Value.ne_cons nofun)
  | .none, .more v rest, w, w', h => by
    simp only [Arguments.tokens, List.nil_append, List.append_assoc] at h
    exact absurd h.symm (Value.ne_cons nofun)
  | .last v, .none, w, w', h => by
    simp only [Arguments.tokens, List.nil_append] at h
    exact absurd h (Value.ne_cons nofun)
  | .more v rest, .none, w, w', h => by
    simp only [Arguments.tokens, List.nil_append, List.append_assoc] at h
    exact absurd h (Value.ne_cons nofun)
  | .last v, .last v', w, w', h => by
    rw [Arguments.tokens, Arguments.tokens] at h
    obtain ⟨rfl, hrest⟩ := Value.unique (stops_cons.2 (by decide)) (stops_cons.2 (by decide)) h
    exact ⟨rfl, List.tail_eq_of_cons_eq hrest⟩
  | .last v, .more v' rest', w, w', h => by
    simp only [Arguments.tokens, List.append_assoc, List.cons_append] at h
    obtain ⟨rfl, hrest⟩ := Value.unique (stops_cons.2 (by decide)) (stops_cons.2 (by decide)) h
    cases hrest
  | .more v rest, .last v', w, w', h => by
    simp only [Arguments.tokens, List.append_assoc, List.cons_append] at h
    obtain ⟨rfl, hrest⟩ := Value.unique (stops_cons.2 (by decide)) (stops_cons.2 (by decide)) h
    cases hrest
  | .more v rest, .more v' rest', w, w', h => by
    simp only [Arguments.tokens, List.append_assoc, List.cons_append] at h
    obtain ⟨rfl, hrest⟩ := Value.unique (stops_cons.2 (by decide)) (stops_cons.2 (by decide)) h
    obtain ⟨rfl, rfl⟩ := Arguments.unique (List.tail_eq_of_cons_eq hrest)
    exact ⟨rfl, rfl⟩

end

/-! ### Statements -/

/-- A statement can begin with the token. -/
def StartsStatement : Token → Prop
  | .keyword .loop | .keyword .branch | .keyword .each => True
  | t => StartsValue t

/-- A statement does not go on with what comes next. -/
structure Ends (w : List Token) : Prop where
  value : Stops 1 w
  branch : w.head? ≠ some (.keyword .otherwise)

theorem StartsValue.statement {t : Token} (h : StartsValue t) : StartsStatement t := by
  cases t with
  | keyword => exact h.elim
  | _ => exact h

theorem StartsStatement.ends {t : Token} {w : List Token} (h : StartsStatement t) :
    Ends (t :: w) := by
  cases t with
  | keyword word =>
    cases word with
    | loop | branch | each => exact ⟨stops_cons.2 (by decide), by simp⟩
    | schema | otherwise | among => exact h.elim
  | number | string | text | ident => exact ⟨stops_cons.2 Nat.zero_lt_one, by simp⟩
  | mark | endOfInput => exact h.elim

theorem Statement.first : ∀ d : Statement, ∃ t w, d.tokens = t :: w ∧ StartsStatement t
  | .loop _ _ => ⟨.keyword .loop, _, by rw [tokens], trivial⟩
  | .branch _ _ | .branchElse _ _ _ => ⟨.keyword .branch, _, by rw [tokens], trivial⟩
  | .each _ _ _ => ⟨.keyword .each, _, by rw [tokens], trivial⟩
  | .value v => by
    obtain ⟨t, w, hw, ht⟩ := v.begins
    exact ⟨t, w, by rw [tokens, hw], ht.statement⟩

/-- Behind a statement come others, or the closing brace. -/
theorem Statements.ends (d : Statements) {w : List Token} :
    Ends (d.tokens ++ .mark .closeBrace :: w) := by
  cases d with
  | done => exact ⟨stops_cons.2 (by decide), by simp [tokens]⟩
  | step s more =>
    obtain ⟨t, v, hv, ht⟩ := s.first
    rw [tokens, hv, List.cons_append, List.cons_append]
    exact ht.ends

/-- A value ends before a block. -/
theorem Value.unique_braced {d d' : Value} {b b' w w' : List Token}
    (h : d.tokens ++ (braced b ++ w) = d'.tokens ++ (braced b' ++ w')) :
    d = d' ∧ b ++ .mark .closeBrace :: w = b' ++ .mark .closeBrace :: w' := by
  simp only [braced, List.cons_append, List.append_assoc, List.nil_append] at h
  obtain ⟨rfl, hrest⟩ := Value.unique (stops_cons.2 (by decide)) (stops_cons.2 (by decide)) h
  exact ⟨rfl, List.tail_eq_of_cons_eq hrest⟩

mutual

theorem Statement.unique : ∀ {d d' : Statement} {w w' : List Token}, Ends w → Ends w' →
    d.tokens ++ w = d'.tokens ++ w' → d = d' ∧ w = w'
  | .loop count body, d', w, w', _, _, h => by
    cases d' with
    | loop count' body' =>
      simp only [Statement.tokens, List.cons_append, List.append_assoc, List.cons.injEq,
        true_and] at h
      obtain ⟨rfl, hbody⟩ := Value.unique_braced h
      obtain ⟨rfl, rfl⟩ := Statements.unique hbody
      exact ⟨rfl, rfl⟩
    | value v => exact absurd h.symm (Value.ne_cons nofun)
    | _ => simp [Statement.tokens] at h
  | .branch condition thenBody, d', w, w', hw, hw', h => by
    cases d' with
    | branch condition' thenBody' =>
      simp only [Statement.tokens, List.cons_append, List.append_assoc, List.cons.injEq,
        true_and] at h
      obtain ⟨rfl, hbody⟩ := Value.unique_braced h
      obtain ⟨rfl, rfl⟩ := Statements.unique hbody
      exact ⟨rfl, rfl⟩
    | branchElse condition' thenBody' elseBody' =>
      simp only [Statement.tokens, List.cons_append, List.append_assoc, List.cons.injEq,
        true_and] at h
      obtain ⟨rfl, hbody⟩ := Value.unique_braced h
      obtain ⟨rfl, rfl⟩ := Statements.unique hbody
      exact absurd rfl hw.branch
    | value v => exact absurd h.symm (Value.ne_cons nofun)
    | _ => simp [Statement.tokens] at h
  | .branchElse condition thenBody elseBody, d', w, w', hw, hw', h => by
    cases d' with
    | branch condition' thenBody' =>
      simp only [Statement.tokens, List.cons_append, List.append_assoc, List.cons.injEq,
        true_and] at h
      obtain ⟨rfl, hbody⟩ := Value.unique_braced h
      obtain ⟨rfl, rfl⟩ := Statements.unique hbody
      exact absurd rfl hw'.branch
    | branchElse condition' thenBody' elseBody' =>
      simp only [Statement.tokens, List.cons_append, List.append_assoc, List.cons.injEq,
        true_and] at h
      obtain ⟨rfl, hbody⟩ := Value.unique_braced h
      obtain ⟨rfl, helse⟩ := Statements.unique hbody
      simp only [braced, List.cons_append, List.append_assoc, List.nil_append, List.cons.injEq,
        true_and] at helse
      obtain ⟨rfl, rfl⟩ := Statements.unique helse
      exact ⟨rfl, rfl⟩
    | value v => exact absurd h.symm (Value.ne_cons nofun)
    | _ => simp [Statement.tokens] at h
  | .each name sequence body, d', w, w', _, _, h => by
    cases d' with
    | each name' sequence' body' =>
      simp only [Statement.tokens, List.cons_append, List.append_assoc, List.cons.injEq, true_and,
        Token.ident.injEq] at h
      obtain ⟨rfl, h⟩ := h
      obtain ⟨rfl, hbody⟩ := Value.unique_braced h
      obtain ⟨rfl, rfl⟩ := Statements.unique hbody
      exact ⟨rfl, rfl⟩
    | value v => exact absurd h.symm (Value.ne_cons nofun)
    | _ => simp [Statement.tokens] at h
  | .value v, d', w, w', hw, hw', h => by
    cases d' with
    | value v' =>
      obtain ⟨rfl, rfl⟩ := Value.unique hw.value hw'.value h
      exact ⟨rfl, rfl⟩
    | _ => exact absurd h (Value.ne_cons nofun)

theorem Statements.unique : ∀ {d d' : Statements} {w w' : List Token},
    d.tokens ++ .mark .closeBrace :: w = d'.tokens ++ .mark .closeBrace :: w' → d = d' ∧ w = w'
  | .done, .done, w, w', h => ⟨rfl, List.tail_eq_of_cons_eq h⟩
  | .done, .step s more, w, w', h => by
    obtain ⟨t, v, hv, ht⟩ := s.first
    rw [Statements.tokens, Statements.tokens, hv] at h
    cases h
    exact ht.elim
  | .step s more, .done, w, w', h => by
    obtain ⟨t, v, hv, ht⟩ := s.first
    rw [Statements.tokens, Statements.tokens, hv] at h
    cases h
    exact ht.elim
  | .step s more, .step s' more', w, w', h => by
    rw [Statements.tokens, Statements.tokens, List.append_assoc, List.append_assoc] at h
    obtain ⟨rfl, hrest⟩ := Statement.unique more.ends more'.ends h
    obtain ⟨rfl, rfl⟩ := Statements.unique hrest
    exact ⟨rfl, rfl⟩

end

/-! ### Schemas -/

theorem Params.unique : ∀ {d d' : Params} {w w' : List Token},
    d.tokens ++ .mark .closeParen :: w = d'.tokens ++ .mark .closeParen :: w' →
      d = d' ∧ w = w' := by
  intro d
  induction d with
  | none =>
    intro d' w w' h
    cases d' with
    | none => exact ⟨rfl, List.tail_eq_of_cons_eq h⟩
    | last | more => simp [tokens] at h
  | last name type =>
    intro d' w w' h
    cases d' with
    | none | more => simp [tokens] at h
    | last name' type' =>
      simp only [tokens, List.cons_append, List.nil_append, List.cons.injEq, Token.ident.injEq,
        true_and] at h
      obtain ⟨rfl, htype, rfl⟩ := h
      obtain rfl := TypeName.token_injective htype
      exact ⟨rfl, rfl⟩
  | more name type rest ih =>
    intro d' w w' h
    cases d' with
    | none | last => simp [tokens] at h
    | more name' type' rest' =>
      simp only [tokens, List.cons_append, List.cons.injEq, Token.ident.injEq, true_and] at h
      obtain ⟨rfl, htype, hrest⟩ := h
      obtain rfl := TypeName.token_injective htype
      obtain ⟨rfl, rfl⟩ := ih hrest
      exact ⟨rfl, rfl⟩

namespace Schema

theorem nameTokens_unique {name? name?' : Option String} {w w' : List Token}
    (h : nameTokens name? ++ .mark .openParen :: w = nameTokens name?' ++ .mark .openParen :: w') :
    name? = name?' ∧ w = w' := by
  cases name? <;> cases name?' <;> simp_all [nameTokens]

theorem resultTokens_unique {type? type?' : Option TypeName} {w w' : List Token}
    (h : resultTokens type? ++ .mark .openBrace :: w =
      resultTokens type?' ++ .mark .openBrace :: w') : type? = type?' ∧ w = w' := by
  cases type? with
  | none =>
    cases type?' with
    | none => exact ⟨rfl, List.tail_eq_of_cons_eq h⟩
    | some type => simp [resultTokens] at h
  | some type =>
    cases type?' with
    | none => simp [resultTokens] at h
    | some type' =>
      simp only [resultTokens, List.cons_append, List.nil_append, List.cons.injEq, true_and] at h
      exact ⟨congrArg _ (TypeName.token_injective h.1), h.2⟩

/-- No schema goes on with another one. -/
theorem unique {d d' : Schema} {w w' : List Token} (h : d.tokens ++ w = d'.tokens ++ w') :
    d = d' ∧ w = w' := by
  obtain ⟨name?, params, returns?, body⟩ := d
  obtain ⟨name?', params', returns?', body'⟩ := d'
  simp only [tokens, braced, List.cons_append, List.append_assoc, List.nil_append, List.cons.injEq,
    true_and] at h
  obtain ⟨rfl, hparams⟩ := nameTokens_unique h
  obtain ⟨rfl, hresult⟩ := Params.unique hparams
  obtain ⟨rfl, hbody⟩ := resultTokens_unique hresult
  obtain ⟨rfl, hrest⟩ := Statements.unique hbody
  exact ⟨rfl, hrest⟩

/-- Tokens have no more than one derivation. -/
theorem eq_of_tokens_eq {d d' : Schema} (h : d.tokens = d'.tokens) : d = d' :=
  (unique (congrArg (· ++ []) h)).1

end Schema

end Grammar

end EventScript
