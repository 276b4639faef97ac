import EventScript.Proofs.Grammar.Unambiguous
import Mathlib.Data.List.Chain

/-!
Where a derivation that ends in closing braces is open: before the braces there are statements, and
others can stand in their place. If a literal or a name comes last of them, it is a statement that
can be left out or said again.
-/
namespace EventScript.Grammar

/-! ### Neighbours -/

/-- The token can stand behind a literal or a name within a value. -/
def Joins (t : Token) : Prop := ¬StartsValue t ∧ t ≠ .mark .closeBrace

/-- The tokens can stand one behind the other within a value. -/
def Apart (t u : Token) : Prop := u ≠ .mark .closeBrace ∧ (StartsValue t → ¬StartsValue u)

section

variable {t : Token} {w x : List Token}

theorem StartsValue.ne_closeBrace (h : StartsValue t) : t ≠ .mark .closeBrace := by
  rintro rfl
  exact h

theorem apart_append (hw : w.IsChain Apart) (hx : x.IsChain Apart)
    (hhead : ∀ t ∈ x.head?, Joins t) : (w ++ x).IsChain Apart :=
  hw.append hx fun _ _ u hu => ⟨(hhead u hu).2, fun _ => (hhead u hu).1⟩

theorem apart_cons (ht : ¬StartsValue t) (hw : w.IsChain Apart)
    (hhead : ∀ u ∈ w.head?, u ≠ .mark .closeBrace) : (t :: w).IsChain Apart :=
  hw.cons fun u hu => ⟨hhead u hu, fun h => absurd h ht⟩

theorem BeginsValue.head_ne (h : BeginsValue w) : ∀ u ∈ w.head?, u ≠ .mark .closeBrace := by
  obtain ⟨t, x, rfl, ht⟩ := h
  rintro _ ⟨⟩
  exact ht.ne_closeBrace

theorem Arrows.joins : ∀ d : Arrows, ∀ t ∈ d.tokens.head?, Joins t
  | .done => by simp [tokens]
  | .call _ _ _ => by simp [tokens, Joins, StartsValue]

theorem Terms.joins : ∀ d : Terms, ∀ t ∈ d.tokens.head?, Joins t
  | .done => by simp [tokens]
  | .step op _ _ => by cases op <;> simp [tokens, LooseOperator.token, Joins, StartsValue]

theorem Factors.joins : ∀ d : Factors, ∀ t ∈ d.tokens.head?, Joins t
  | .done => by simp [tokens]
  | .step op _ _ => by cases op <;> simp [tokens, TightOperator.token, Joins, StartsValue]

theorem Arguments.head_ne (d : Arguments) (hx : ∀ u ∈ x.head?, u ≠ .mark .closeBrace) :
    ∀ u ∈ (d.tokens ++ x).head?, u ≠ .mark .closeBrace := by
  cases d with
  | none => exact hx
  | last v =>
    rw [tokens]
    exact v.begins.append.head_ne
  | more v rest =>
    rw [tokens, List.append_assoc]
    exact v.begins.append.head_ne

/-- What stands in parentheses, and what comes behind. -/
theorem apart_tuple {args : Arguments} (hargs : args.tokens.IsChain Apart) (hx : x.IsChain Apart)
    (hhead : ∀ t ∈ x.head?, Joins t) :
    (.mark .openParen :: (args.tokens ++ .mark .closeParen :: x)).IsChain Apart := by
  have hclose : (.mark .closeParen :: x).IsChain Apart :=
    apart_cons id hx fun u hu => (hhead u hu).2
  refine apart_cons id (apart_append hargs hclose ?_) (args.head_ne ?_)
  · rintro _ ⟨⟩
    exact ⟨id, nofun⟩
  · rintro _ ⟨⟩
    nofun

mutual

theorem Value.apart : ∀ d : Value, d.tokens.IsChain Apart
  | .assign name stored => by
    rw [Value.tokens]
    exact .cons_cons ⟨nofun, fun _ => id⟩ (apart_cons id stored.apart stored.begins.head_ne)
  | .arrow a => by
    rw [Value.tokens]
    exact a.apart

theorem Arrow.apart : ∀ d : Arrow, d.tokens.IsChain Apart
  | .mk receiver calls => by
    rw [Arrow.tokens]
    exact apart_append receiver.apart calls.apart calls.joins

theorem Arrows.apart : ∀ d : Arrows, d.tokens.IsChain Apart
  | .done => by
    rw [Arrows.tokens]
    exact .nil
  | .call name args more => by
    rw [Arrows.tokens]
    exact .cons_cons ⟨nofun, nofun⟩ (.cons_cons ⟨nofun, fun _ => id⟩
      (apart_tuple args.apart more.apart more.joins))

theorem Term.apart : ∀ d : Term, d.tokens.IsChain Apart
  | .mk first more => by
    rw [Term.tokens]
    exact apart_append first.apart more.apart more.joins

theorem Terms.apart : ∀ d : Terms, d.tokens.IsChain Apart
  | .done => by
    rw [Terms.tokens]
    exact .nil
  | .step op right more => by
    rw [Terms.tokens]
    exact apart_cons (by cases op <;> exact id) (apart_append right.apart more.apart more.joins)
      right.begins.append.head_ne

theorem Factor.apart : ∀ d : Factor, d.tokens.IsChain Apart
  | .mk first more => by
    rw [Factor.tokens]
    exact apart_append first.apart more.apart more.joins

theorem Factors.apart : ∀ d : Factors, d.tokens.IsChain Apart
  | .done => by
    rw [Factors.tokens]
    exact .nil
  | .step op right more => by
    rw [Factors.tokens]
    exact apart_cons (by cases op <;> exact id) (apart_append right.apart more.apart more.joins)
      right.begins.append.head_ne

theorem Invocation.apart : ∀ d : Invocation, d.tokens.IsChain Apart
  | .primary p => by
    rw [Invocation.tokens]
    exact .singleton _
  | .call name args => by
    rw [Invocation.tokens]
    exact .cons_cons ⟨nofun, fun _ => id⟩ (apart_tuple args.apart .nil nofun)

theorem Arguments.apart : ∀ d : Arguments, d.tokens.IsChain Apart
  | .none => by
    rw [Arguments.tokens]
    exact .nil
  | .last v => by
    rw [Arguments.tokens]
    exact v.apart
  | .more v rest => by
    have hrest : (.mark .comma :: rest.tokens).IsChain Apart := by
      have hhead := rest.head_ne (x := []) nofun
      rw [List.append_nil] at hhead
      exact apart_cons id rest.apart hhead
    rw [Arguments.tokens]
    refine apart_append v.apart hrest ?_
    rintro _ ⟨⟩
    exact ⟨id, nofun⟩

end

/-- A value ends in no closing brace, and not in two literals or names. -/
theorem Value.ending {d : Value} {t u : Token} (h : d.tokens = w ++ [t, u]) : Apart t u :=
  List.isChain_iff_forall_rel_of_append_cons_cons.1 d.apart h

end

/-! ### Openings -/

def closing (m : Nat) : List Token := List.replicate m (.mark .closeBrace)

/-- Behind `w` and the token, `m` closing braces make tokens of the language. Some statements end in
the token, in the place of which there can be any others. -/
def Opening (L : List Token → Prop) (w : List Token) (t : Token) (m : Nat) : Prop :=
  ∃ x y, w = x ++ y ∧ (∃ b : Statements, b.tokens = y ++ [t]) ∧
    ∀ b : Statements, L (x ++ (b.tokens ++ closing m))

section

variable {L : List Token → Prop} {t u : Token} {m n : Nat} {w x y z : List Token}

@[simp] theorem closing_zero : closing 0 = [] := rfl

theorem closing_succ (m : Nat) : closing (m + 1) = closing m ++ [.mark .closeBrace] :=
  List.replicate_succ'

theorem not_mem_closing (ht : t ≠ .mark .closeBrace) : t ∉ closing m := fun h =>
  ht (List.eq_of_mem_replicate h)

/-- What does not come at the end has its place before it. -/
theorem exists_of_append_eq (h : x ++ u :: y = w ++ t :: z) (hu : u ∉ z) :
    ∃ v, w = x ++ v ∧ u :: y = v ++ t :: z := by
  rcases List.append_eq_append_iff.1 h with ⟨v, hw, hv⟩ | ⟨v, hx, hv⟩
  · exact ⟨v, hw, hv⟩
  · cases v with
    | nil => exact ⟨[], by simp [hx], hv.symm⟩
    | cons t' v =>
      rw [List.cons_append, List.cons.injEq] at hv
      exact absurd (by simp [hv.2]) hu

/-- The braces of a block are the last of those that close. -/
theorem exists_of_braced (ht : StartsValue t) (h : x ++ braced y = w ++ t :: closing m) :
    ∃ n v, m = n + 1 ∧ w = x ++ .mark .openBrace :: v ∧ y = v ++ t :: closing n := by
  have hbraced : x ++ braced y = (x ++ .mark .openBrace :: y) ++ [.mark .closeBrace] := by
    simp [braced]
  rw [hbraced] at h
  cases m with
  | zero =>
    have hlast := congrArg List.getLast? h
    simp only [closing, List.replicate_zero, List.getLast?_concat] at hlast
    exact absurd (Option.some.inj hlast).symm ht.ne_closeBrace
  | succ m =>
    rw [closing_succ, ← List.cons_append, ← List.append_assoc] at h
    obtain ⟨v, rfl, hv⟩ := exists_of_append_eq (List.append_cancel_right h)
      (not_mem_closing nofun)
    cases v with
    | nil =>
      cases hv
      exact ht.elim
    | cons u v =>
      obtain ⟨rfl, rfl⟩ := List.cons.inj hv
      exact ⟨m, v, rfl, rfl, rfl⟩

theorem Opening.braced (h : Opening (fun w => ∃ d : Statements, w = d.tokens) w t m)
    (hL : ∀ d : Statements, L (x ++ braced d.tokens)) :
    Opening L (x ++ .mark .openBrace :: w) t (m + 1) := by
  obtain ⟨y, z, rfl, hz, hopen⟩ := h
  refine ⟨x ++ .mark .openBrace :: y, z, by simp, hz, fun b => ?_⟩
  obtain ⟨d, hd⟩ := hopen b
  have hbraced := hL d
  rw [← hd] at hbraced
  simpa [Grammar.braced, closing_succ] using hbraced

theorem Statements.eq_done_or_first (d : Statements) :
    d = .done ∨ ∃ t w, d.tokens = t :: w ∧ t ≠ .mark .closeBrace := by
  cases d with
  | done => exact .inl rfl
  | step s more =>
    obtain ⟨t, w, hw, ht⟩ := s.first
    exact .inr ⟨t, w ++ more.tokens, by rw [tokens, hw, List.cons_append], by rintro rfl; exact ht⟩

mutual

theorem Statement.opening (ht : StartsValue t) : ∀ {d : Statement} {m : Nat} {w : List Token},
    d.tokens = w ++ t :: closing (m + 1) →
      Opening (fun w => ∃ d : Statement, w = d.tokens) w t (m + 1)
  | .loop count body, m, w, h => by
    rw [Statement.tokens, ← List.cons_append] at h
    obtain ⟨n, v, ⟨⟩, rfl, hbody⟩ := exists_of_braced ht h
    exact (Statements.opening ht hbody).braced fun d =>
      ⟨.loop count d, by rw [Statement.tokens, List.cons_append]⟩
  | .branch condition thenBody, m, w, h => by
    rw [Statement.tokens, ← List.cons_append] at h
    obtain ⟨n, v, ⟨⟩, rfl, hbody⟩ := exists_of_braced ht h
    exact (Statements.opening ht hbody).braced fun d =>
      ⟨.branch condition d, by rw [Statement.tokens, List.cons_append]⟩
  | .branchElse condition thenBody elseBody, m, w, h => by
    have htokens (d : Statements) : (Statement.branchElse condition thenBody d).tokens =
        (.keyword .branch :: (condition.tokens ++ (braced thenBody.tokens ++
          [.keyword .otherwise]))) ++ braced d.tokens := by
      simp [Statement.tokens]
    rw [htokens] at h
    obtain ⟨n, v, ⟨⟩, rfl, hbody⟩ := exists_of_braced ht h
    exact (Statements.opening ht hbody).braced fun d => ⟨_, (htokens d).symm⟩
  | .each name sequence body, m, w, h => by
    have htokens (d : Statements) : (Statement.each name sequence d).tokens =
        (.keyword .each :: .ident name :: .keyword .among :: sequence.tokens) ++
          braced d.tokens := by
      simp [Statement.tokens]
    rw [htokens] at h
    obtain ⟨n, v, ⟨⟩, rfl, hbody⟩ := exists_of_braced ht h
    exact (Statements.opening ht hbody).braced fun d => ⟨_, (htokens d).symm⟩
  | .value v, m, w, h => by
    rw [Statement.tokens] at h
    have hlast : ∃ x u, w ++ t :: closing m = x ++ [u] :=
      ⟨_, _, (List.dropLast_append_getLast (by simp)).symm⟩
    obtain ⟨x, u, hx⟩ := hlast
    rw [closing_succ, ← List.cons_append, ← List.append_assoc, hx, List.append_assoc] at h
    exact absurd rfl (Value.ending h).1

theorem Statements.opening (ht : StartsValue t) : ∀ {d : Statements} {m : Nat} {w : List Token},
    d.tokens = w ++ t :: closing m → Opening (fun w => ∃ d : Statements, w = d.tokens) w t m
  | d, 0, w, h => ⟨[], w, rfl, ⟨d, h⟩, fun b => ⟨b, by simp [closing]⟩⟩
  | .done, m + 1, w, h => by
    rw [Statements.tokens] at h
    exact absurd h (by simp)
  | .step s more, m + 1, w, h => by
    rw [Statements.tokens] at h
    rcases more.eq_done_or_first with rfl | ⟨u, z, hz, hu⟩
    · rw [Statements.tokens, List.append_nil] at h
      obtain ⟨x, y, rfl, hy, hopen⟩ := Statement.opening ht h
      refine ⟨x, y, rfl, hy, fun b => ?_⟩
      obtain ⟨d, hd⟩ := hopen b
      exact ⟨.step d .done, by rw [hd, Statements.tokens, Statements.tokens, List.append_nil]⟩
    · rw [hz] at h
      obtain ⟨v, rfl, hv⟩ := exists_of_append_eq h (not_mem_closing hu)
      obtain ⟨x, y, rfl, hy, hopen⟩ := Statements.opening ht (hz.trans hv)
      refine ⟨s.tokens ++ x, y, (List.append_assoc _ _ _).symm, hy, fun b => ?_⟩
      obtain ⟨d, hd⟩ := hopen b
      exact ⟨.step s d, by rw [List.append_assoc, hd, Statements.tokens]⟩

end

theorem Schema.opening (ht : StartsValue t) {d : Schema} (h : d.tokens = w ++ t :: closing m) :
    Opening (fun w => ∃ d : Schema, w = d.tokens) w t m := by
  obtain ⟨name?, params, returns?, body⟩ := d
  have htokens (b : Statements) : (Schema.mk name? params returns? b).tokens =
      (.keyword .schema :: (nameTokens name? ++ .mark .openParen :: (params.tokens ++
        .mark .closeParen :: resultTokens returns?))) ++ braced b.tokens := by
    simp [tokens]
  rw [htokens] at h
  obtain ⟨n, v, rfl, rfl, hbody⟩ := exists_of_braced ht h
  exact (Statements.opening ht hbody).braced fun d => ⟨_, (htokens d).symm⟩

/-! ### Repetitions -/

/-- Two literals or names at the end are a statement each. -/
theorem Statement.ending {d : Statement} (ht : StartsValue t) (hu : StartsValue u) :
    d.tokens ≠ w ++ [t, u] := by
  intro h
  have hbraced {x y : List Token} (h : x ++ braced y = w ++ [t, u]) : False := by
    obtain ⟨n, v, hn, -⟩ :=
      exists_of_braced (m := 0) (w := w ++ [t]) hu (by simpa [closing] using h)
    cases hn
  cases d with
  | value v =>
    rw [tokens] at h
    exact (Value.ending h).2 ht hu
  | loop count body => exact hbraced (x := .keyword .loop :: count.tokens) h
  | branch condition thenBody => exact hbraced (x := .keyword .branch :: condition.tokens) h
  | branchElse condition thenBody elseBody =>
    exact hbraced (x := .keyword .branch :: (condition.tokens ++ (braced thenBody.tokens ++
      [.keyword .otherwise]))) (by simpa [tokens] using h)
  | each name sequence body =>
    exact hbraced (x := .keyword .each :: .ident name :: .keyword .among :: sequence.tokens) h

/-- The last of two literals or names can be left out. -/
theorem Statements.exists_shorter (ht : StartsValue t) (hu : StartsValue u) :
    ∀ {d : Statements} {w : List Token}, d.tokens = w ++ [t, u] →
      ∃ d' : Statements, d'.tokens = w ++ [t]
  | .done, w, h => by
    rw [tokens] at h
    exact absurd h (by simp)
  | .step s more, w, h => by
    have hsplit : w ++ [t, u] = (w ++ [t]) ++ [u] := by simp
    rw [tokens] at h
    rcases List.eq_nil_or_concat more.tokens with hmore | ⟨y, u', hmore⟩
    · rw [hmore, List.append_nil] at h
      exact absurd h (Statement.ending ht hu)
    · rw [hmore, hsplit, List.concat_eq_append, ← List.append_assoc] at h
      obtain ⟨hy, ⟨⟩⟩ := List.append_inj' h rfl
      rcases List.eq_nil_or_concat y with rfl | ⟨z, t', rfl⟩
      · exact ⟨.step s .done, by rw [tokens, tokens, hy]⟩
      · rw [List.concat_eq_append, ← List.append_assoc] at hy
        obtain ⟨rfl, ⟨⟩⟩ := List.append_inj' hy rfl
        obtain ⟨d, hd⟩ := more.exists_shorter ht hu (by simpa using hmore)
        exact ⟨.step s d, by rw [tokens, hd, List.append_assoc]⟩

theorem exists_primary (ht : StartsValue t) : ∃ p : Primary, p.token = t := by
  cases t with
  | number n => exact ⟨.number n, rfl⟩
  | string s => exact ⟨.string s, rfl⟩
  | text markup => exact ⟨.text markup, rfl⟩
  | ident name =>
    by_cases htrue : name = "true"
    · exact ⟨.bool true, by rw [htrue]; rfl⟩
    · by_cases hfalse : name = "false"
      · exact ⟨.bool false, by rw [hfalse]; rfl⟩
      · exact ⟨.name ⟨name, htrue, hfalse⟩, rfl⟩
  | keyword | mark | endOfInput => exact ht.elim

/-- A literal or a name is a statement. -/
theorem exists_statement (ht : StartsValue t) : ∃ d : Statement, d.tokens = [t] := by
  obtain ⟨p, rfl⟩ := exists_primary ht
  refine ⟨.value (.arrow (.mk (.mk (.mk (.primary p) .done) .done) .done)), ?_⟩
  simp [Statement.tokens, Value.tokens, Arrow.tokens, Term.tokens, Factor.tokens,
    Invocation.tokens, Factors.tokens, Terms.tokens, Arrows.tokens]

theorem Statements.exists_append (s : Statement) :
    ∀ d : Statements, ∃ d' : Statements, d'.tokens = d.tokens ++ s.tokens
  | .done => ⟨.step s .done, by simp [tokens]⟩
  | .step s' more => by
    obtain ⟨d, hd⟩ := more.exists_append s
    exact ⟨.step s' d, by rw [tokens, tokens, hd, List.append_assoc]⟩

/-- A literal or a name before the closing braces can be said twice. -/
theorem Schema.twice_iff (ht : StartsValue t) :
    (∃ d : Schema, d.tokens = w ++ t :: t :: closing m) ↔
      ∃ d : Schema, d.tokens = w ++ t :: closing m := by
  constructor
  · rintro ⟨d, hd⟩
    have hsplit : w ++ t :: t :: closing m = (w ++ [t]) ++ t :: closing m := by simp
    obtain ⟨x, y, hw, ⟨b, hb⟩, hopen⟩ := Schema.opening ht (hd.trans hsplit)
    rcases List.eq_nil_or_concat y with rfl | ⟨z, t', rfl⟩
    · obtain ⟨d, hd⟩ := hopen .done
      refine ⟨d, ?_⟩
      rw [← hd, ← List.append_nil x, ← hw]
      simp [Statements.tokens]
    · rw [List.concat_eq_append, ← List.append_assoc] at hw
      obtain ⟨rfl, ⟨⟩⟩ := List.append_inj' hw rfl
      obtain ⟨b', hb'⟩ := b.exists_shorter ht ht (by simpa using hb)
      obtain ⟨d, hd⟩ := hopen b'
      exact ⟨d, by rw [← hd, hb']; simp⟩
  · rintro ⟨d, hd⟩
    obtain ⟨x, y, rfl, ⟨b, hb⟩, hopen⟩ := Schema.opening ht hd
    obtain ⟨s, hs⟩ := exists_statement ht
    obtain ⟨b', hb'⟩ := b.exists_append s
    obtain ⟨d, hd⟩ := hopen b'
    exact ⟨d, by rw [← hd, hb', hb, hs]; simp⟩

theorem Schema.replicate_iff (ht : StartsValue t) (n : Nat) :
    (∃ d : Schema, d.tokens = w ++ (List.replicate (n + 1) t ++ closing m)) ↔
      ∃ d : Schema, d.tokens = w ++ t :: closing m := by
  induction n with
  | zero => rfl
  | succ n ih =>
    have hreplicate : w ++ (List.replicate (n + 2) t ++ closing m) =
        (w ++ List.replicate n t) ++ t :: t :: closing m := by
      simp [List.replicate_succ']
    rw [hreplicate, Schema.twice_iff ht, ← ih]
    simp [List.replicate_succ']

end

end EventScript.Grammar
