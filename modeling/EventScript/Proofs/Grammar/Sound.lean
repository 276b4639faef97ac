import EventScript.Proofs.Grammar.Consuming
import EventScript.Proofs.Grammar.Unambiguous

/-!
What is read is derived: each part of the parser passes tokens of which the grammar has a derivation
for the tree that the part answers.
-/
namespace EventScript

namespace Parser

variable {α β : Type} {p : Parser β} {f : β → Parser α}

/-! ### Rules -/

section

variable {H : Token → Prop} {P : List Token → α → Prop} {Q : List Token → β → Prop} {t : Token}

/-- What the parser answers, and the tokens that it passes to get there, have the property, if the
token that comes next does. -/
def Reads (H : Token → Prop) (P : List Token → α → Prop) (p : Parser α) : Prop :=
  ∀ ⦃ts a rest⦄, Ended ts → H (next ts) → Returns p ts a rest →
    Ended rest ∧ ∃ read, ts = read ++ rest ∧ P (read.map (·.token)) a

def Any (_ : Token) : Prop := True

/-- Whether tokens are read does not depend on their spans. -/
theorem reads_iff_consumes {p : Parser α} :
    Reads H P p ↔ Consumes (fun t => H t.token) (fun w a => P (w.map (·.token)) a) p := by
  simp only [Reads, Consumes, next_eq_front]

theorem reads_mono {H' : Token → Prop} {P' : List Token → α → Prop} {p : Parser α}
    (h : Reads H P p) (hH : ∀ t, H' t → H t) (hP : ∀ w a, P w a → P' w a) : Reads H' P' p :=
  reads_iff_consumes.2 <| consumes_mono (reads_iff_consumes.1 h) (fun t => hH t.token) fun _ => hP _

theorem reads_pure {a : α} (h : P [] a) : Reads H P (pure a) :=
  reads_iff_consumes.2 (consumes_pure h)

theorem reads_outOfFuel : Reads H P outOfFuel := reads_iff_consumes.2 consumes_outOfFuel

theorem reads_bind (hp : Reads H Q p)
    (hf : ∀ b w, Q w b → Reads Any (fun w' a => P (w ++ w') a) (f b)) : Reads H P (p >>= f) := by
  refine reads_iff_consumes.2 (consumes_bind (reads_iff_consumes.1 hp) fun b w hw => ?_)
  refine consumes_mono (reads_iff_consumes.1 (hf b _ hw)) (fun _ => id) fun w' a h => ?_
  rwa [List.map_append]

theorem reads_peek_bind {f : Token → Parser α} (hf : ∀ t, H t → Reads (· = t) P (f t)) :
    Reads H P (peek >>= f) := by
  refine reads_iff_consumes.2 (consumes_peek_bind fun t ts a rest hts hnext h => ?_)
  obtain ⟨hH, rfl⟩ := hnext
  exact reads_iff_consumes.1 (hf _ hH) hts rfl h

theorem reads_here_bind {f : Span → Parser α} (hf : ∀ span, Reads H P (f span)) :
    Reads H P (here >>= f) :=
  reads_iff_consumes.2 <| consumes_here_bind fun span =>
    consumes_mono (reads_iff_consumes.1 (hf span)) (fun _ h => h.1) fun _ _ => id

/-- A token that is known to come next is passed. -/
theorem reads_advance_bind {f : Unit → Parser α} (ht : t ≠ .endOfInput)
    (hf : Reads Any (fun w a => P (t :: w) a) (f ())) : Reads (· = t) P (advance >>= f) := by
  refine reads_iff_consumes.2 (consumes_advance_bind (fun u hu => hu ▸ ht) fun u hu => ?_)
  refine consumes_mono (reads_iff_consumes.1 hf) (fun _ => id) fun w a h => ?_
  rwa [List.map_cons, hu]

theorem reads_unexpected {expected : String} : Reads H P (unexpected expected) :=
  reads_iff_consumes.2 consumes_unexpected

theorem reads_expect (ht : t ≠ .endOfInput) : Reads H (fun w _ => w = [t]) (expect t) :=
  reads_iff_consumes.2 <| consumes_mono (consumes_expect ht) (fun _ => id) fun _ _ h => by
    rw [h]
    rfl

theorem reads_discard {p : Parser α} (hp : Reads H P p) :
    Reads H (fun w _ => ∃ a, P w a) (discard p) :=
  reads_iff_consumes.2 (consumes_discard (reads_iff_consumes.1 hp))

theorem reads_name {what : String} : Reads H (fun w r => w = [.ident r.1]) (name what) :=
  reads_iff_consumes.2 <| consumes_mono consumes_name (fun _ => id) fun _ _ h => by
    rw [h]
    rfl

theorem reads_type :
    Reads H (fun w r => ∃ t : Grammar.TypeName, w = [t.token] ∧ r.1 = t.1) type := by
  refine reads_iff_consumes.2 (consumes_mono consumes_type (fun _ => id) ?_)
  rintro w r ⟨rfl, htype⟩
  exact ⟨⟨r.1, List.mem_of_find?_eq_some htype⟩, rfl, rfl⟩

/-- A comma is passed, unless the closing parenthesis comes next. -/
theorem reads_separator_bind {f : Unit → Parser α}
    (hclose : Reads (· = .mark .closeParen) P (f ()))
    (hcomma : Reads Any (fun w a => P (.mark .comma :: w) a) (f ())) :
    Reads H P (separator >>= f) :=
  reads_iff_consumes.2 <| consumes_separator_bind (reads_iff_consumes.1 hclose) fun _ =>
    reads_iff_consumes.1 hcomma

end

/-! ### Parameters and words -/

section

variable {H : Token → Prop}

open Grammar

/-- Where the closing parenthesis comes next, parameters are at their end. -/
theorem reads_params_close {fuel : Nat} {read : List Param} :
    Reads (· = .mark .closeParen) (fun w ps => w = [] ∧ ps = read.reverse) (params fuel read) := by
  cases fuel with
  | zero => exact reads_outOfFuel
  | succ fuel =>
    unfold params
    refine reads_peek_bind fun t ht => ?_
    rw [if_pos ht]
    exact reads_pure ⟨rfl, rfl⟩

theorem reads_params {fuel : Nat} {read : List Param} : Reads H (fun w ps => ∃ d : Params,
    w = d.tokens ∧ ps.map Param.unspanned = read.reverse.map Param.unspanned ++ d.trees)
      (params fuel read) := by
  induction fuel generalizing H read with
  | zero => exact reads_outOfFuel
  | succ fuel ih =>
    unfold params
    refine reads_peek_bind fun t _ => ?_
    split
    · exact reads_pure ⟨.none, rfl, (List.append_nil _).symm⟩
    · refine reads_bind reads_name fun (name, nameSpan) w hw => ?_
      obtain rfl : w = [.ident name] := hw
      refine reads_bind reads_type fun (type, typeSpan) w ⟨t, hw, ht⟩ => ?_
      subst hw
      obtain rfl : type = t.1 := ht
      refine reads_separator_bind (reads_mono reads_params_close (fun _ => id) ?_)
        (reads_mono ih (fun _ => id) ?_)
      · rintro w ps ⟨rfl, rfl⟩
        exact ⟨.last name t, rfl, by simp [Params.trees, Param.unspanned]⟩
      · rintro w ps ⟨d, rfl, hps⟩
        exact ⟨.more name t d, rfl, by simp [hps, Params.trees, Param.unspanned]⟩

theorem reads_result : Reads H (fun w type => ∃ type? : Option TypeName,
    w = Schema.resultTokens type? ∧ type = type?.elim .void (·.1)) result := by
  refine reads_peek_bind fun t _ => ?_
  split
  · rename_i h
    subst h
    refine reads_advance_bind nofun (reads_bind reads_type fun r w ⟨type, hw, hr⟩ => ?_)
    exact reads_pure ⟨some type, by simp [hw, Schema.resultTokens], hr⟩
  · exact reads_pure ⟨none, rfl, rfl⟩

theorem reads_primary : Reads H (fun w e => ∃ p : Primary, w = [p.token] ∧ e.unspanned = p.tree)
    primary := by
  refine reads_here_bind fun span => reads_peek_bind fun t _ => ?_
  split
  · exact reads_advance_bind nofun (reads_pure ⟨.number _, rfl, by rw [Expr.unspanned]; rfl⟩)
  · exact reads_advance_bind nofun (reads_pure ⟨.string _, rfl, by rw [Expr.unspanned]; rfl⟩)
  · exact reads_advance_bind nofun (reads_pure ⟨.text _, rfl, by rw [Expr.unspanned]; rfl⟩)
  · rename_i name _
    refine reads_advance_bind nofun (reads_pure ?_)
    split
    · rename_i htrue
      exact ⟨.bool true, by rw [htrue]; rfl, by rw [Expr.unspanned]; rfl⟩
    · split
      · rename_i hfalse
        exact ⟨.bool false, by rw [hfalse]; rfl, by rw [Expr.unspanned]; rfl⟩
      · rename_i htrue hfalse
        exact ⟨.name ⟨name, htrue, hfalse⟩, rfl, by rw [Expr.unspanned]; rfl⟩
  · exact reads_unexpected

theorem exists_of_looseOperator? {t : Token} {op : Arithmetic} (h : looseOperator? t = some op) :
    ∃ o : LooseOperator, o.token = t ∧ o.arithmetic = op := by
  unfold looseOperator? at h
  split at h
  · cases h
    exact ⟨.plus, rfl, rfl⟩
  · cases h
    exact ⟨.star, rfl, rfl⟩
  · cases h

theorem exists_of_tightOperator? {t : Token} {op : Arithmetic} (h : tightOperator? t = some op) :
    ∃ o : TightOperator, o.token = t ∧ o.arithmetic = op := by
  unfold tightOperator? at h
  split at h
  · cases h
    exact ⟨.minus, rfl, rfl⟩
  · cases h
    exact ⟨.slash, rfl, rfl⟩
  · cases h

end

/-! ### Values -/

end Parser

namespace Grammar

/-- A tree that is a bare name is of nothing but this name. -/
theorem Factors.eq_of_read {name : String} : ∀ {d : Factors} {left : Expr},
    d.tree left = .read .none name → d = .done ∧ left = .read .none name
  | .done, _, h => ⟨rfl, h⟩
  | .step _ _ more, _, h => nomatch (Factors.eq_of_read (d := more) h).2

theorem Terms.eq_of_read {name : String} : ∀ {d : Terms} {left : Expr},
    d.tree left = .read .none name → d = .done ∧ left = .read .none name
  | .done, _, h => ⟨rfl, h⟩
  | .step _ _ more, _, h => nomatch (Terms.eq_of_read (d := more) h).2

theorem Arrows.eq_of_read {name : String} : ∀ {d : Arrows} {receiver : Expr},
    d.tree receiver = .read .none name → d = .done ∧ receiver = .read .none name
  | .done, _, h => ⟨rfl, h⟩
  | .call _ _ more, _, h => nomatch (Arrows.eq_of_read (d := more) h).2

theorem Primary.eq_of_read {p : Primary} {name : String} (h : p.tree = .read .none name) :
    ∃ n : BareName, p = .name n ∧ n.1 = name := by
  cases p with
  | name n =>
    cases h
    exact ⟨n, rfl, rfl⟩
  | _ => cases h

theorem Arrow.eq_of_read {a : Arrow} {name : String} (h : a.tree = .read .none name) :
    ∃ n : BareName, a.tokens = [.ident n.1] ∧ n.1 = name := by
  obtain ⟨⟨⟨first, factors⟩, terms⟩, calls⟩ := a
  obtain ⟨rfl, h⟩ := Arrows.eq_of_read h
  obtain ⟨rfl, h⟩ := Terms.eq_of_read h
  obtain ⟨rfl, h⟩ := Factors.eq_of_read h
  cases first with
  | primary p =>
    obtain ⟨n, rfl, hn⟩ := Primary.eq_of_read h
    exact ⟨n, rfl, hn⟩
  | call => cases h

end Grammar

namespace Parser

variable {H : Token → Prop}

open Grammar

/-- Where the closing parenthesis comes next, arguments are at their end. -/
theorem reads_arguments_close {fuel : Nat} {read : List Expr} :
    Reads (· = .mark .closeParen) (fun w es => w = [] ∧ es = read.reverse)
      (arguments fuel read) := by
  cases fuel with
  | zero => exact reads_outOfFuel
  | succ fuel =>
    unfold arguments
    refine reads_peek_bind fun t ht => ?_
    rw [if_pos ht]
    exact reads_pure ⟨rfl, rfl⟩

mutual

theorem reads_value : ∀ fuel {H : Token → Prop},
    Reads H (fun w e => ∃ d : Grammar.Value, w = d.tokens ∧ e.unspanned = d.tree) (value fuel)
  | 0, _ => reads_outOfFuel
  | fuel + 1, H => by
    unfold value
    refine reads_bind (reads_arrow fuel) fun target w ⟨a, hw, ha⟩ => ?_
    subst hw
    refine reads_peek_bind fun t _ => ?_
    split
    · rename_i span name _ _
      obtain ⟨n, hn, rfl⟩ := Arrow.eq_of_read (ha.symm.trans (by rw [Expr.unspanned]))
      refine reads_advance_bind nofun (reads_bind (reads_value fuel) fun stored w ⟨v, hw, hv⟩ => ?_)
      subst hw
      exact reads_pure ⟨.assign n v, by simp [hn, Grammar.Value.tokens],
        by simp [hv, Expr.unspanned, Grammar.Value.tree]⟩
    · exact reads_pure ⟨.arrow a, by simp [Grammar.Value.tokens], by simp [ha, Grammar.Value.tree]⟩

theorem reads_arrow : ∀ fuel {H : Token → Prop},
    Reads H (fun w e => ∃ d : Arrow, w = d.tokens ∧ e.unspanned = d.tree) (arrow fuel)
  | 0, _ => reads_outOfFuel
  | fuel + 1, H => by
    unfold arrow
    refine reads_bind (reads_term fuel) fun receiver w ⟨d, hw, hd⟩ => ?_
    subst hw
    refine reads_mono (reads_arrows fuel receiver) (fun _ => id) ?_
    rintro w e ⟨calls, rfl, he⟩
    exact ⟨.mk d calls, by rw [Arrow.tokens], by rw [he, hd, Arrow.tree]⟩

theorem reads_arrows : ∀ fuel (receiver : Expr) {H : Token → Prop}, Reads H
    (fun w e => ∃ d : Arrows, w = d.tokens ∧ e.unspanned = d.tree receiver.unspanned)
      (arrows fuel receiver)
  | 0, _, _ => reads_outOfFuel
  | fuel + 1, receiver, H => by
    unfold arrows
    refine reads_peek_bind fun t _ => ?_
    split
    · rename_i h
      subst h
      refine reads_advance_bind nofun (reads_bind reads_name fun (name, _) w hw => ?_)
      obtain rfl : w = [.ident name] := hw
      refine reads_bind (reads_tuple fuel) fun (args, span) w ⟨d, hw, hd⟩ => ?_
      subst hw
      refine reads_mono (reads_arrows fuel _) (fun _ => id) ?_
      rintro w e ⟨more, rfl, he⟩
      refine ⟨.call name d more, by simp [Arrows.tokens], ?_⟩
      rw [he, Arrows.tree, ← hd, Expr.unspanned, Expr.allUnspanned_eq_map, List.map_cons]
    · exact reads_pure ⟨.done, rfl, rfl⟩

theorem reads_term : ∀ fuel {H : Token → Prop},
    Reads H (fun w e => ∃ d : Term, w = d.tokens ∧ e.unspanned = d.tree) (term fuel)
  | 0, _ => reads_outOfFuel
  | fuel + 1, H => by
    unfold term
    refine reads_bind (reads_factor fuel) fun first w ⟨d, hw, hd⟩ => ?_
    subst hw
    refine reads_mono (reads_terms fuel first) (fun _ => id) ?_
    rintro w e ⟨more, rfl, he⟩
    exact ⟨.mk d more, by rw [Term.tokens], by rw [he, hd, Term.tree]⟩

theorem reads_terms : ∀ fuel (left : Expr) {H : Token → Prop}, Reads H
    (fun w e => ∃ d : Terms, w = d.tokens ∧ e.unspanned = d.tree left.unspanned) (terms fuel left)
  | 0, _, _ => reads_outOfFuel
  | fuel + 1, left, H => by
    unfold terms
    refine reads_peek_bind fun t _ => ?_
    split
    · rename_i op hop
      obtain ⟨o, rfl, rfl⟩ := exists_of_looseOperator? hop
      refine reads_advance_bind (by cases o <;> nofun) ?_
      refine reads_bind (reads_factor fuel) fun right w ⟨d, hw, hd⟩ => ?_
      subst hw
      refine reads_mono (reads_terms fuel _) (fun _ => id) ?_
      rintro w e ⟨more, rfl, he⟩
      exact ⟨.step o d more, by rw [Terms.tokens],
        by rw [he, Terms.tree, combine, Expr.unspanned, hd]⟩
    · exact reads_pure ⟨.done, rfl, rfl⟩

theorem reads_factor : ∀ fuel {H : Token → Prop},
    Reads H (fun w e => ∃ d : Factor, w = d.tokens ∧ e.unspanned = d.tree) (factor fuel)
  | 0, _ => reads_outOfFuel
  | fuel + 1, H => by
    unfold factor
    refine reads_bind (reads_invocation fuel) fun first w ⟨d, hw, hd⟩ => ?_
    subst hw
    refine reads_mono (reads_factors fuel first) (fun _ => id) ?_
    rintro w e ⟨more, rfl, he⟩
    exact ⟨.mk d more, by rw [Factor.tokens], by rw [he, hd, Factor.tree]⟩

theorem reads_factors : ∀ fuel (left : Expr) {H : Token → Prop}, Reads H
    (fun w e => ∃ d : Factors, w = d.tokens ∧ e.unspanned = d.tree left.unspanned)
      (factors fuel left)
  | 0, _, _ => reads_outOfFuel
  | fuel + 1, left, H => by
    unfold factors
    refine reads_peek_bind fun t _ => ?_
    split
    · rename_i op hop
      obtain ⟨o, rfl, rfl⟩ := exists_of_tightOperator? hop
      refine reads_advance_bind (by cases o <;> nofun) ?_
      refine reads_bind (reads_invocation fuel) fun right w ⟨d, hw, hd⟩ => ?_
      subst hw
      refine reads_mono (reads_factors fuel _) (fun _ => id) ?_
      rintro w e ⟨more, rfl, he⟩
      exact ⟨.step o d more, by rw [Factors.tokens],
        by rw [he, Factors.tree, combine, Expr.unspanned, hd]⟩
    · exact reads_pure ⟨.done, rfl, rfl⟩

theorem reads_invocation : ∀ fuel {H : Token → Prop},
    Reads H (fun w e => ∃ d : Invocation, w = d.tokens ∧ e.unspanned = d.tree) (invocation fuel)
  | 0, _ => reads_outOfFuel
  | fuel + 1, H => by
    unfold invocation
    refine reads_bind reads_primary fun base w ⟨p, hw, hp⟩ => ?_
    subst hw
    refine reads_peek_bind fun t _ => ?_
    split
    · rename_i span name _ _
      obtain ⟨n, rfl, rfl⟩ := Primary.eq_of_read (hp.symm.trans (by rw [Expr.unspanned]))
      refine reads_bind (reads_mono (reads_tuple fuel) (fun _ _ => trivial) fun _ _ => id)
        fun (args, span) w ⟨d, hw, hd⟩ => ?_
      subst hw
      refine reads_pure ⟨.call n d, by simp [Invocation.tokens, Primary.token], ?_⟩
      rw [Expr.unspanned, Expr.allUnspanned_eq_map, hd, Invocation.tree]
    · exact reads_pure ⟨.primary p, by simp [Invocation.tokens], by rw [hp, Invocation.tree]⟩

theorem reads_tuple : ∀ fuel {H : Token → Prop}, Reads H (fun w r => ∃ d : Arguments,
    w = .mark .openParen :: (d.tokens ++ [.mark .closeParen]) ∧
      r.1.map Expr.unspanned = d.trees) (tuple fuel)
  | 0, _ => reads_outOfFuel
  | fuel + 1, H => by
    unfold tuple
    refine reads_bind (reads_expect nofun) fun start w hw => ?_
    subst hw
    refine reads_bind (reads_arguments fuel []) fun args w ⟨d, hw, hd⟩ => ?_
    subst hw
    refine reads_bind (reads_expect nofun) fun stop w hw => ?_
    subst hw
    exact reads_pure ⟨d, by simp, hd⟩

theorem reads_arguments : ∀ fuel (read : List Expr) {H : Token → Prop}, Reads H
    (fun w es => ∃ d : Arguments, w = d.tokens ∧
      es.map Expr.unspanned = read.reverse.map Expr.unspanned ++ d.trees) (arguments fuel read)
  | 0, _, _ => reads_outOfFuel
  | fuel + 1, read, H => by
    unfold arguments
    refine reads_peek_bind fun t _ => ?_
    split
    · exact reads_pure ⟨.none, rfl, (List.append_nil _).symm⟩
    · refine reads_bind (reads_value fuel) fun argument w ⟨v, hw, hv⟩ => ?_
      subst hw
      refine reads_separator_bind (reads_mono reads_arguments_close (fun _ => id) ?_)
        (reads_mono (reads_arguments fuel _) (fun _ => id) ?_)
      · rintro w es ⟨rfl, rfl⟩
        exact ⟨.last v, by simp [Arguments.tokens], by simp [hv, Arguments.trees]⟩
      · rintro w es ⟨d, rfl, hes⟩
        exact ⟨.more v d, by simp [Arguments.tokens], by simp [hes, hv, Arguments.trees]⟩

end

/-! ### Statements -/

mutual

theorem reads_block : ∀ fuel {H : Token → Prop}, Reads H (fun w e => ∃ d : Statements,
    w = braced d.tokens ∧ e.unspanned = .block .none d.trees) (block fuel)
  | 0, _ => reads_outOfFuel
  | fuel + 1, H => by
    unfold block
    refine reads_bind (reads_expect nofun) fun start w hw => ?_
    subst hw
    refine reads_bind (reads_statements fuel []) fun body w ⟨d, hw, hd⟩ => ?_
    subst hw
    refine reads_bind (reads_expect nofun) fun stop w hw => ?_
    subst hw
    refine reads_pure ⟨d, by simp [braced], ?_⟩
    rw [Expr.unspanned, Expr.allUnspanned_eq_map, hd]
    rfl

theorem reads_statements : ∀ fuel (read : List Expr) {H : Token → Prop}, Reads H
    (fun w es => ∃ d : Statements, w = d.tokens ∧
      es.map Expr.unspanned = read.reverse.map Expr.unspanned ++ d.trees) (statements fuel read)
  | 0, _, _ => reads_outOfFuel
  | fuel + 1, read, H => by
    unfold statements
    refine reads_peek_bind fun t _ => ?_
    split
    · exact reads_pure ⟨.done, rfl, (List.append_nil _).symm⟩
    · refine reads_bind (reads_statement fuel) fun s w ⟨d, hw, hd⟩ => ?_
      subst hw
      refine reads_mono (reads_statements fuel _) (fun _ => id) ?_
      rintro w es ⟨more, rfl, hes⟩
      exact ⟨.step d more, by rw [Statements.tokens], by simp [hes, hd, Statements.trees]⟩

theorem reads_statement : ∀ fuel {H : Token → Prop}, Reads H
    (fun w e => ∃ d : Statement, w = d.tokens ∧ e.unspanned = d.tree) (statement fuel)
  | 0, _ => reads_outOfFuel
  | fuel + 1, H => by
    unfold statement
    refine reads_peek_bind fun t _ => ?_
    split
    · refine reads_here_bind fun start => reads_advance_bind nofun ?_
      refine reads_bind (reads_value fuel) fun count w ⟨v, hw, hv⟩ => ?_
      subst hw
      refine reads_bind (reads_block fuel) fun body w ⟨d, hw, hd⟩ => ?_
      subst hw
      exact reads_pure ⟨.loop v d, by simp [Statement.tokens],
        by rw [Expr.unspanned, hv, hd, Statement.tree]⟩
    · refine reads_here_bind fun start => reads_advance_bind nofun ?_
      refine reads_bind (reads_value fuel) fun condition w ⟨v, hw, hv⟩ => ?_
      subst hw
      refine reads_bind (reads_block fuel) fun thenBody w ⟨d, hw, hd⟩ => ?_
      subst hw
      refine reads_peek_bind fun t _ => ?_
      split
      · rename_i h
        subst h
        refine reads_advance_bind nofun ?_
        refine reads_bind (reads_block fuel) fun elseBody w ⟨d', hw, hd'⟩ => ?_
        subst hw
        exact reads_pure ⟨.branchElse v d d', by simp [Statement.tokens],
          by rw [Expr.unspanned, hv, hd, hd', Statement.tree]⟩
      · exact reads_pure ⟨.branch v d, by simp [Statement.tokens],
          by rw [Expr.unspanned, hv, hd, Statement.tree]⟩
    · refine reads_here_bind fun start => reads_advance_bind nofun ?_
      refine reads_bind reads_name fun (name, _) w hw => ?_
      obtain rfl : w = [.ident name] := hw
      refine reads_bind (reads_discard (reads_expect nofun)) fun _ w ⟨_, hw⟩ => ?_
      subst hw
      refine reads_bind (reads_value fuel) fun sequence w ⟨v, hw, hv⟩ => ?_
      subst hw
      refine reads_bind (reads_block fuel) fun body w ⟨d, hw, hd⟩ => ?_
      subst hw
      exact reads_pure ⟨.each name v d, by simp [Statement.tokens],
        by rw [Expr.unspanned, hv, hd, Statement.tree]⟩
    · refine reads_mono (reads_value fuel) (fun _ _ => trivial) ?_
      rintro w e ⟨v, rfl, hv⟩
      exact ⟨.value v, by rw [Statement.tokens], by rw [hv, Statement.tree]⟩

end

/-! ### Schemas -/

section

variable {α β : Type} {P : List Token → α → Prop} {Q : List Token → β → Prop} {p : Parser β}

/-- What the parser answers, and all tokens there are, have the property. -/
def ReadsAll (P : List Token → α → Prop) (p : Parser α) : Prop :=
  ∀ ⦃ts a rest⦄, Ended ts → Returns p ts a rest → P (ts.map (·.token)) a

theorem readsAll_iff_consumesAll {p : Parser α} :
    ReadsAll P p ↔ ConsumesAll (fun w a => P (w.map (·.token)) a) p := Iff.rfl

theorem readsAll_bind {f : β → Parser α} (hp : Reads Any Q p)
    (hf : ∀ b w, Q w b → ReadsAll (fun w' a => P (w ++ w') a) (f b)) : ReadsAll P (p >>= f) := by
  refine readsAll_iff_consumesAll.2 (consumesAll_bind (reads_iff_consumes.1 hp) fun b w hw => ?_)
  simp only [List.map_append]
  exact readsAll_iff_consumesAll.1 (hf b _ hw)

theorem readsAll_peek_bind {f : Token → Parser α} (hf : ∀ t, ReadsAll P (f t)) :
    ReadsAll P (peek >>= f) :=
  readsAll_iff_consumesAll.2 (consumesAll_peek_bind fun t => readsAll_iff_consumesAll.1 (hf t))

/-- Only the end of input is left. -/
theorem readsAll_end {a : α} (h : P [.endOfInput] a) :
    ReadsAll P (do discard (expect .endOfInput); return a) :=
  readsAll_iff_consumesAll.2 (consumesAll_end fun _ => h)

end

/-- A schema is made of all tokens before the end of input. -/
theorem readsAll_schema {fuel : Nat} : ReadsAll (fun w (s : EventScript.Schema) =>
    ∃ d : Grammar.Schema, w = d.tokens ++ [.endOfInput] ∧ s.unspanned = d.tree) (schema fuel) := by
  have tail {start : Span} (name? : Option String) : ReadsAll (fun w (s : EventScript.Schema) =>
      ∃ d : Grammar.Schema, .keyword .schema :: (Schema.nameTokens name? ++ w) =
        d.tokens ++ [.endOfInput] ∧ s.unspanned = d.tree) (do
      discard (expect (.mark .openParen))
      let params ← params fuel []
      discard (expect (.mark .closeParen))
      let returns ← result
      let body ← block fuel
      discard (expect .endOfInput)
      return ⟨name?, params, returns, body, start.merge body.span⟩) := by
    refine readsAll_bind (reads_discard (reads_expect (by decide))) fun _ w h => ?_
    obtain ⟨_, rfl⟩ := h
    refine readsAll_bind reads_params fun params w h => ?_
    obtain ⟨d, rfl, hparams⟩ := h
    refine readsAll_bind (reads_discard (reads_expect (by decide))) fun _ w h => ?_
    obtain ⟨_, rfl⟩ := h
    refine readsAll_bind reads_result fun returns w h => ?_
    obtain ⟨type?, rfl, hreturns⟩ := h
    refine readsAll_bind (reads_block fuel) fun body w h => ?_
    obtain ⟨statements, rfl, hbody⟩ := h
    refine readsAll_end ⟨⟨name?, d, type?, statements⟩, by simp [Schema.tokens], ?_⟩
    simp only [EventScript.Schema.unspanned, Schema.tree, hparams, hreturns, hbody]
    rfl
  unfold schema
  refine readsAll_bind (reads_expect (by decide)) fun start w hw => ?_
  subst hw
  refine readsAll_peek_bind fun t => ?_
  simp only
  split
  · refine readsAll_bind reads_name fun r w hw => ?_
    subst hw
    exact tail (some r.1)
  · exact tail none

end Parser

end EventScript
