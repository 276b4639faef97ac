import EventScript.Proofs.Lowering
import EventScript.Syntax.Parser

/-!
The trees that source texts have. Blocks stand only where statements do: an operand or argument is
flat, put together from literals, reads, assignments, arithmetic and calls. No call comes bound, and
parameters and results have types with a keyword.
-/
namespace EventScript

namespace Expr

mutual

/-- No statement that has a block is part of the tree. -/
def IsFlat : Expr → Prop
  | .number _ _ | .string _ _ | .text _ _ | .bool _ _ | .read _ _ => True
  | .write _ _ value => value.IsFlat
  | .arithmetic _ _ left right => left.IsFlat ∧ right.IsFlat
  | .call _ _ args target => target = none ∧ AllFlat args
  | .branch _ _ _ _ | .loop _ _ _ | .each _ _ _ _ | .block _ _ | .bound _ _ _ => False

def AllFlat : List Expr → Prop
  | [] => True
  | e :: es => e.IsFlat ∧ AllFlat es

end

mutual

/-- Blocks stand only where statements do. -/
def IsStatement : Expr → Prop
  | .branch _ condition thenBody none => condition.IsFlat ∧ thenBody.IsStatement
  | .branch _ condition thenBody (some elseBody) =>
    condition.IsFlat ∧ thenBody.IsStatement ∧ elseBody.IsStatement
  | .loop _ count body => count.IsFlat ∧ body.IsStatement
  | .each _ _ sequence body => sequence.IsFlat ∧ body.IsStatement
  | .block _ statements => AllStatements statements
  | .number _ _ | .string _ _ | .text _ _ | .bool _ _ | .read _ _ => True
  | .write _ _ value => value.IsFlat
  | .arithmetic _ _ left right => left.IsFlat ∧ right.IsFlat
  | .call _ _ args target => target = none ∧ AllFlat args
  | .bound _ _ _ => False

def AllStatements : List Expr → Prop
  | [] => True
  | e :: es => e.IsStatement ∧ AllStatements es

end

theorem IsFlat.isStatement {e : Expr} (h : e.IsFlat) : e.IsStatement := by
  cases e <;> simp_all [IsFlat, IsStatement]

mutual

theorem IsFlat.unbound : ∀ {e : Expr}, e.IsFlat → e.Unbound
  | .number _ _, _ | .string _ _, _ | .text _ _, _ | .bool _ _, _ | .read _ _, _ => trivial
  | .write _ _ value, h => IsFlat.unbound (e := value) h
  | .arithmetic _ _ _ _, h => ⟨IsFlat.unbound h.1, IsFlat.unbound h.2⟩
  | .call _ _ _ _, h => ⟨h.1, AllFlat.allUnbound h.2⟩

theorem AllFlat.allUnbound : ∀ {es : List Expr}, AllFlat es → AllUnbound es
  | [], _ => trivial
  | _ :: _, h => ⟨IsFlat.unbound h.1, AllFlat.allUnbound h.2⟩

end

mutual

theorem IsStatement.unbound : ∀ {e : Expr}, e.IsStatement → e.Unbound
  | .branch _ _ _ none, h => ⟨h.1.unbound, IsStatement.unbound h.2⟩
  | .branch _ _ _ (some _), h =>
    ⟨h.1.unbound, IsStatement.unbound h.2.1, IsStatement.unbound h.2.2⟩
  | .loop _ _ _, h => ⟨h.1.unbound, IsStatement.unbound h.2⟩
  | .each _ _ _ _, h => ⟨h.1.unbound, IsStatement.unbound h.2⟩
  | .block _ _, h => AllStatements.allUnbound h
  | .number _ _, _ | .string _ _, _ | .text _ _, _ | .bool _ _, _ | .read _ _, _ => trivial
  | .write _ _ value, h => IsFlat.unbound (e := value) h
  | .arithmetic _ _ _ _, h => ⟨h.1.unbound, h.2.unbound⟩
  | .call _ _ _ _, h => ⟨h.1, h.2.allUnbound⟩

theorem AllStatements.allUnbound : ∀ {es : List Expr}, AllStatements es → AllUnbound es
  | [], _ => trivial
  | _ :: _, h => ⟨IsStatement.unbound h.1, AllStatements.allUnbound h.2⟩

end

theorem allFlat_iff {es : List Expr} : AllFlat es ↔ ∀ e ∈ es, e.IsFlat := by
  induction es with
  | nil => simp [AllFlat]
  | cons e es ih => simp [AllFlat, ih]

theorem allStatements_iff {es : List Expr} : AllStatements es ↔ ∀ e ∈ es, e.IsStatement := by
  induction es with
  | nil => simp [AllStatements]
  | cons e es ih => simp [AllStatements, ih]

end Expr

namespace Parser

variable {α β : Type} {P : α → Prop} {Q : β → Prop}

/-- Whatever the parser reads has the property. -/
def Yields (P : α → Prop) (p : Parser α) : Prop :=
  ∀ tokens a rest, p tokens = ExceptT.mk (some (.ok (a, rest))) → P a

theorem yields_pure {a : α} (h : P a) : Yields P (pure a) := by
  rintro tokens _ _ heq
  cases heq
  exact h

theorem yields_outOfFuel : Yields P outOfFuel := by
  rintro tokens _ _ heq
  cases heq

theorem yields_refuse {complaint : CompileError.Complaint} {span : Span} :
    Yields P (refuse complaint span) := by
  rintro tokens _ _ heq
  cases heq

theorem yields_bind {p : Parser β} {f : β → Parser α} (hp : Yields Q p)
    (hf : ∀ b, Q b → Yields P (f b)) : Yields P (p >>= f) := by
  intro tokens a rest h
  change (p tokens >>= fun r => f r.1 r.2 : ExceptT CompileError Option _) = _ at h
  cases hx : p tokens with
  | none =>
    rw [hx] at h
    cases h
  | some r =>
    rw [hx] at h
    cases r with
    | error e => cases h
    | ok r =>
      obtain ⟨b, tokens⟩ := r
      exact hf b (hp _ _ _ hx) _ _ _ h

theorem yields_true (p : Parser β) : Yields (fun _ => True) p := fun _ _ _ _ => trivial

/-- What is read first does not matter. -/
theorem yields_bind_any {p : Parser β} {f : β → Parser α} (hf : ∀ b, Yields P (f b)) :
    Yields P (p >>= f) :=
  yields_bind (yields_true p) fun b _ => hf b

theorem yields_unexpected {expected : String} : Yields P (unexpected expected) :=
  yields_bind_any fun _ => yields_bind_any fun _ => yields_refuse

theorem yields_type : Yields (fun t => t.1 ∈ StaticType.keywords) type := by
  refine yields_bind_any fun (word, span) => ?_
  simp only
  split
  · rename_i t ht
    exact yields_pure (List.mem_of_find?_eq_some ht)
  · exact yields_refuse

theorem yields_params : ∀ (fuel : Nat) {read : List Param},
    (∀ p ∈ read, p.type ∈ StaticType.keywords) →
      Yields (fun ps => ∀ p ∈ ps, p.type ∈ StaticType.keywords) (params fuel read)
  | 0, _, _ => yields_outOfFuel
  | fuel + 1, read, h => by
    unfold params
    refine yields_bind_any fun token => ?_
    split
    · exact yields_pure (by simpa using h)
    · refine yields_bind_any fun (name, nameSpan) => ?_
      refine yields_bind yields_type fun (type, typeSpan) htype => ?_
      refine yields_bind_any fun _ => yields_params fuel ?_
      intro p hp
      rcases List.mem_cons.1 hp with rfl | hp
      · exact htype
      · exact h p hp

theorem yields_result : Yields (· ∈ StaticType.keywords) result := by
  unfold result
  refine yields_bind_any fun token => ?_
  split
  · exact yields_bind_any fun _ => yields_bind yields_type fun _ h => yields_pure h
  · exact yields_pure (by decide)

theorem yields_primary : Yields Expr.IsFlat primary := by
  unfold primary
  refine yields_bind_any fun span => yields_bind_any fun token => ?_
  split
  · exact yields_bind_any fun _ => yields_pure trivial
  · exact yields_bind_any fun _ => yields_pure trivial
  · exact yields_bind_any fun _ => yields_pure trivial
  · refine yields_bind_any fun _ => ?_
    split
    · exact yields_pure trivial
    · split
      · exact yields_pure trivial
      · exact yields_pure trivial
  · exact yields_unexpected

mutual

theorem yields_block : ∀ fuel, Yields Expr.IsStatement (block fuel)
  | 0 => yields_outOfFuel
  | fuel + 1 => by
    unfold block
    refine yields_bind_any fun _ => ?_
    refine yields_bind (yields_statements fuel (by simp)) fun body hbody => ?_
    exact yields_bind_any fun _ => yields_pure (Expr.allStatements_iff.2 hbody)

theorem yields_statements : ∀ fuel {read : List Expr}, (∀ e ∈ read, e.IsStatement) →
    Yields (fun es => ∀ e ∈ es, e.IsStatement) (statements fuel read)
  | 0, _, _ => yields_outOfFuel
  | fuel + 1, read, h => by
    unfold statements
    refine yields_bind_any fun token => ?_
    split
    · exact yields_pure (by simpa using h)
    · refine yields_bind (yields_statement fuel) fun s hs => yields_statements fuel ?_
      intro e he
      rcases List.mem_cons.1 he with rfl | he
      · exact hs
      · exact h e he

theorem yields_statement : ∀ fuel, Yields Expr.IsStatement (statement fuel)
  | 0 => yields_outOfFuel
  | fuel + 1 => by
    unfold statement
    refine yields_bind_any fun token => ?_
    split
    · refine yields_bind_any fun _ => yields_bind_any fun _ => ?_
      refine yields_bind (yields_value fuel) fun count hcount => ?_
      exact yields_bind (yields_block fuel) fun body hbody => yields_pure ⟨hcount, hbody⟩
    · refine yields_bind_any fun _ => yields_bind_any fun _ => ?_
      refine yields_bind (yields_value fuel) fun condition hcondition => ?_
      refine yields_bind (yields_block fuel) fun thenBody hthen => ?_
      refine yields_bind_any fun token => ?_
      split
      · refine yields_bind_any fun _ => ?_
        exact yields_bind (yields_block fuel) fun elseBody helse =>
          yields_pure ⟨hcondition, hthen, helse⟩
      · exact yields_pure ⟨hcondition, hthen⟩
    · refine yields_bind_any fun _ => yields_bind_any fun _ => yields_bind_any fun _ => ?_
      refine yields_bind_any fun _ => ?_
      refine yields_bind (yields_value fuel) fun sequence hsequence => ?_
      exact yields_bind (yields_block fuel) fun body hbody => yields_pure ⟨hsequence, hbody⟩
    · intro tokens e rest h
      exact (yields_value fuel tokens e rest h).isStatement

theorem yields_value : ∀ fuel, Yields Expr.IsFlat (value fuel)
  | 0 => yields_outOfFuel
  | fuel + 1 => by
    unfold value
    refine yields_bind (yields_arrow fuel) fun target htarget => ?_
    refine yields_bind_any fun token => ?_
    split
    · exact yields_bind_any fun _ =>
        yields_bind (yields_value fuel) fun stored hstored => yields_pure hstored
    · exact yields_pure htarget

theorem yields_arrow : ∀ fuel, Yields Expr.IsFlat (arrow fuel)
  | 0 => yields_outOfFuel
  | fuel + 1 => by
    unfold arrow
    exact yields_bind (yields_term fuel) fun _ h => yields_arrows fuel h

theorem yields_arrows : ∀ fuel {receiver : Expr}, receiver.IsFlat →
    Yields Expr.IsFlat (arrows fuel receiver)
  | 0, _, _ => yields_outOfFuel
  | fuel + 1, receiver, h => by
    unfold arrows
    refine yields_bind_any fun token => ?_
    split
    · refine yields_bind_any fun _ => yields_bind_any fun (name, _) => ?_
      refine yields_bind (yields_tuple fuel) fun (args, span) hargs => ?_
      exact yields_arrows fuel ⟨rfl, h, Expr.allFlat_iff.2 hargs⟩
    · exact yields_pure h

theorem yields_term : ∀ fuel, Yields Expr.IsFlat (term fuel)
  | 0 => yields_outOfFuel
  | fuel + 1 => by
    unfold term
    exact yields_bind (yields_factor fuel) fun _ h => yields_terms fuel h

theorem yields_terms : ∀ fuel {left : Expr}, left.IsFlat → Yields Expr.IsFlat (terms fuel left)
  | 0, _, _ => yields_outOfFuel
  | fuel + 1, left, h => by
    unfold terms
    refine yields_bind_any fun token => ?_
    split
    · refine yields_bind_any fun _ => ?_
      exact yields_bind (yields_factor fuel) fun right hright =>
        yields_terms fuel (show (combine _ left right).IsFlat from ⟨h, hright⟩)
    · exact yields_pure h

theorem yields_factor : ∀ fuel, Yields Expr.IsFlat (factor fuel)
  | 0 => yields_outOfFuel
  | fuel + 1 => by
    unfold factor
    exact yields_bind (yields_invocation fuel) fun _ h => yields_factors fuel h

theorem yields_factors : ∀ fuel {left : Expr}, left.IsFlat → Yields Expr.IsFlat (factors fuel left)
  | 0, _, _ => yields_outOfFuel
  | fuel + 1, left, h => by
    unfold factors
    refine yields_bind_any fun token => ?_
    split
    · refine yields_bind_any fun _ => ?_
      exact yields_bind (yields_invocation fuel) fun right hright =>
        yields_factors fuel (show (combine _ left right).IsFlat from ⟨h, hright⟩)
    · exact yields_pure h

theorem yields_invocation : ∀ fuel, Yields Expr.IsFlat (invocation fuel)
  | 0 => yields_outOfFuel
  | fuel + 1 => by
    unfold invocation
    refine yields_bind yields_primary fun base hbase => ?_
    refine yields_bind_any fun token => ?_
    split
    · exact yields_bind (yields_tuple fuel) fun (args, span) hargs =>
        yields_pure ⟨rfl, Expr.allFlat_iff.2 hargs⟩
    · exact yields_pure hbase

theorem yields_tuple : ∀ fuel, Yields (fun r => ∀ e ∈ r.1, e.IsFlat) (tuple fuel)
  | 0 => yields_outOfFuel
  | fuel + 1 => by
    unfold tuple
    refine yields_bind_any fun _ => ?_
    refine yields_bind (yields_arguments fuel (by simp)) fun args hargs => ?_
    exact yields_bind_any fun _ => yields_pure hargs

theorem yields_arguments : ∀ fuel {read : List Expr}, (∀ e ∈ read, e.IsFlat) →
    Yields (fun es => ∀ e ∈ es, e.IsFlat) (arguments fuel read)
  | 0, _, _ => yields_outOfFuel
  | fuel + 1, read, h => by
    unfold arguments
    refine yields_bind_any fun token => ?_
    split
    · exact yields_pure (by simpa using h)
    · refine yields_bind (yields_value fuel) fun argument hargument => ?_
      refine yields_bind_any fun _ => yields_arguments fuel ?_
      intro e he
      rcases List.mem_cons.1 he with rfl | he
      · exact hargument
      · exact h e he

end

end Parser

/-- What reading from text makes of a schema. -/
structure Schema.IsSource (s : Schema) : Prop where
  body : s.body.IsStatement
  params : ∀ p ∈ s.params, p.type ∈ StaticType.keywords
  returns : s.returns ∈ StaticType.keywords

namespace Schema

theorem yields_schema (fuel : Nat) : Parser.Yields IsSource (Parser.schema fuel) := by
  have tail : ∀ (start : Span) name?, Parser.Yields IsSource (do
      discard (Parser.expect (.mark .openParen))
      let params ← Parser.params fuel []
      discard (Parser.expect (.mark .closeParen))
      let returns ← Parser.result
      let body ← Parser.block fuel
      discard (Parser.expect .endOfInput)
      return ⟨name?, params, returns, body, start.merge body.span⟩) := by
    intro start name?
    refine Parser.yields_bind_any fun _ => ?_
    refine Parser.yields_bind (Parser.yields_params fuel (by simp)) fun params hparams => ?_
    refine Parser.yields_bind_any fun _ => ?_
    refine Parser.yields_bind Parser.yields_result fun returns hreturns => ?_
    refine Parser.yields_bind (Parser.yields_block fuel) fun body hbody => ?_
    exact Parser.yields_bind_any fun _ => Parser.yields_pure ⟨hbody, hparams, hreturns⟩
  unfold Parser.schema
  refine Parser.yields_bind_any fun start => Parser.yields_bind_any fun token => ?_
  simp only
  split
  · exact Parser.yields_bind_any fun _ => Parser.yields_bind_any fun _ => tail start _
  · exact Parser.yields_bind_any fun _ => tail start _

theorem isSource_of_ofText {text : String} {s : Schema} (h : ofText text = .ok s) :
    s.IsSource := by
  obtain ⟨tokens, _, h⟩ := bind_eq_ok.1 h
  unfold parse at h
  split at h
  · rename_i result hresult
    subst h
    change ((fun r => r.1) <$> Parser.schema (Parser.fuelFor tokens) tokens :
      ExceptT CompileError Option Schema) = some (.ok s) at hresult
    cases hx : Parser.schema (Parser.fuelFor tokens) tokens with
    | none =>
      rw [hx] at hresult
      cases hresult
    | some r =>
      rw [hx] at hresult
      cases r with
      | error e => cases hresult
      | ok r =>
        obtain ⟨t, rest⟩ := r
        cases hresult
        exact yields_schema _ _ _ _ hx
  · cases h

end Schema

end EventScript
