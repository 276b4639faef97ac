import EventScript.Proofs.Grammar.Sound

/-!
What is derived is read: on the tokens of a derivation, with tokens behind them that do not go on
with it, each part of the parser answers the tree of the derivation and leaves what is behind. The
fuel that this takes is bounded by the tokens.
-/
namespace EventScript

namespace Parser

variable {α β : Type} {p : Parser β} {H H₁ : List Token → Prop} {R : α → Prop} {Q : β → Prop}
  {t : Token} {w u v : List Token}

/-- On these tokens, with others behind them that have the property, the parser answers what has the
other property, and leaves those behind. -/
def Accepts (w : List Token) (H : List Token → Prop) (R : α → Prop) (p : Parser α) : Prop :=
  ∀ ⦃read rest : List SpannedToken⦄, read.map (·.token) = w → rest ≠ [] →
    H (rest.map (·.token)) → ∃ a, Returns p (read ++ rest) a rest ∧ R a

def Whatever (_ : List Token) : Prop := True

/-- The token comes next. -/
def Before (t : Token) (w : List Token) : Prop := w.head? = some t

theorem Before.stops {level : Nat} (h : Before t w) (ht : t.binding < level) :
    Grammar.Stops level w := by
  rintro u hu
  cases h.symm.trans hu
  exact ht

theorem accepts_pure {a : α} (h : R a) : Accepts [] H R (pure a) := by
  rintro read rest hread _ _
  obtain rfl := List.map_eq_nil_iff.1 hread
  exact ⟨a, returns_pure.2 ⟨rfl, rfl⟩, h⟩

theorem accepts_mono {R' : α → Prop} {p : Parser α} (h : Accepts w H R p) (hH : ∀ x, H₁ x → H x)
    (hR : ∀ a, R a → R' a) : Accepts w H₁ R' p := by
  intro read rest hread hrest hnext
  obtain ⟨a, ha, hRa⟩ := h hread hrest (hH _ hnext)
  exact ⟨a, ha, hR a hRa⟩

theorem accepts_bind {f : β → Parser α} (hw : w = u ++ v) (hp : Accepts u H₁ Q p)
    (hnext : ∀ x, H x → H₁ (v ++ x)) (hf : ∀ b, Q b → Accepts v H R (f b)) :
    Accepts w H R (p >>= f) := by
  intro read rest hread hrest hH
  obtain ⟨first, second, rfl, rfl, rfl⟩ := List.map_eq_append_iff.1 (hread.trans hw)
  obtain ⟨b, hb, hQ⟩ := @hp first (second ++ rest) rfl (by simp [hrest])
    (by simpa using hnext _ hH)
  obtain ⟨a, ha, hR⟩ := hf b hQ rfl hrest hH
  exact ⟨a, returns_bind.2 ⟨b, _, by rwa [List.append_assoc], ha⟩, hR⟩

theorem accepts_peek_bind {f : Token → Parser α} (ht : Before t w) (hf : Accepts w H R (f t)) :
    Accepts w H R (peek >>= f) := by
  rintro read rest rfl hrest hH
  obtain ⟨a, ha, hR⟩ := hf rfl hrest hH
  cases read with
  | nil => cases ht
  | cons u us =>
    cases ht
    exact ⟨a, returns_bind.2 ⟨_, _, returns_peek.2 ⟨rfl, rfl⟩, ha⟩, hR⟩

/-- Where nothing is left the token behind is seen. -/
theorem accepts_peek_end_bind {f : Token → Parser α}
    (hf : ∀ t x, H (t :: x) → Accepts [] (Before t) R (f t)) : Accepts [] H R (peek >>= f) := by
  intro read rest hread hrest hH
  obtain rfl := List.map_eq_nil_iff.1 hread
  obtain ⟨u, us, rfl⟩ := List.exists_cons_of_ne_nil hrest
  obtain ⟨a, ha, hR⟩ := @hf u.token _ hH [] (u :: us) rfl hrest rfl
  exact ⟨a, returns_bind.2 ⟨_, _, returns_peek.2 ⟨rfl, rfl⟩, ha⟩, hR⟩

theorem accepts_here_bind {f : Span → Parser α} (hf : ∀ span, Accepts w H R (f span)) :
    Accepts w H R (here >>= f) := by
  intro read rest hread hrest hH
  obtain ⟨a, ha, hR⟩ := hf ((read ++ rest).head?.elim .none (·.span)) hread hrest hH
  exact ⟨a, returns_bind.2 ⟨_, _, rfl, ha⟩, hR⟩

theorem accepts_advance_bind {f : Unit → Parser α} (hf : Accepts w H R (f ())) :
    Accepts (t :: w) H R (advance >>= f) := by
  intro read rest hread hrest hH
  obtain ⟨u, us, rfl, _, hus⟩ := List.map_eq_cons_iff.1 hread
  obtain ⟨a, ha, hR⟩ := hf hus hrest hH
  refine ⟨a, returns_bind.2 ⟨(), us ++ rest, ?_, ha⟩, hR⟩
  obtain ⟨v, vs, hvs⟩ := List.exists_cons_of_ne_nil (List.append_ne_nil_of_right_ne_nil us hrest)
  rw [List.cons_append, hvs]
  rfl

theorem accepts_expect : Accepts [t] Whatever (fun _ => True) (expect t) := by
  refine accepts_peek_bind rfl ?_
  rw [if_pos rfl]
  exact accepts_here_bind fun span => accepts_advance_bind (accepts_pure trivial)

theorem accepts_discard {p : Parser α} (hp : Accepts w H R p) :
    Accepts w H (fun _ => True) (discard p) :=
  accepts_bind (List.append_nil w).symm hp (fun _ => id) fun _ _ => accepts_pure trivial

theorem accepts_name {what word : String} :
    Accepts [.ident word] Whatever (fun r => r.1 = word) (name what) :=
  accepts_peek_bind rfl (accepts_here_bind fun _ => accepts_advance_bind (accepts_pure rfl))

theorem ofKeyword?_name (t : Grammar.TypeName) : StaticType.ofKeyword? t.1.name = some t.1 := by
  obtain ⟨type, h⟩ := t
  have hfind : ∀ type ∈ StaticType.keywords, StaticType.ofKeyword? type.name = some type := by
    decide
  exact hfind type h

theorem accepts_type (t : Grammar.TypeName) :
    Accepts [t.token] Whatever (fun r => r.1 = t.1) type := by
  refine accepts_bind (v := []) rfl accepts_name (fun _ _ => trivial) fun (word, span) hword => ?_
  obtain rfl : word = t.1.name := hword
  simp only [ofKeyword?_name]
  exact accepts_pure rfl

theorem accepts_separator_close :
    Accepts [] (Before (.mark .closeParen)) (fun _ => True) separator := by
  refine accepts_peek_end_bind fun t x ht => ?_
  rw [if_pos (Option.some.inj ht)]
  exact accepts_pure trivial

theorem accepts_separator_comma : Accepts [.mark .comma] Whatever (fun _ => True) separator := by
  refine accepts_peek_bind rfl ?_
  rw [if_neg nofun]
  exact accepts_discard accepts_expect

/-! ### Parameters and words -/

open Grammar

theorem exists_succ_of_pos {n : Nat} (h : 0 < n) : ∃ m, n = m + 1 := Nat.exists_eq_add_one.2 h

theorem accepts_params_done {fuel : Nat} {read : List Param} :
    Accepts [] (Before (.mark .closeParen)) (· = read.reverse) (params (fuel + 1) read) := by
  unfold params
  refine accepts_peek_end_bind fun t x ht => ?_
  rw [if_pos (Option.some.inj ht)]
  exact accepts_pure rfl

theorem accepts_params (d : Params) {fuel : Nat} {read : List Param} (h : d.tokens.length < fuel) :
    Accepts d.tokens (Before (.mark .closeParen)) (fun ps => ps.map Param.unspanned =
      read.reverse.map Param.unspanned ++ d.trees) (params fuel read) := by
  induction d generalizing fuel read with
  | none =>
    obtain ⟨fuel, rfl⟩ := exists_succ_of_pos (show 0 < fuel by omega)
    refine accepts_mono accepts_params_done (fun _ => id) ?_
    rintro _ rfl
    exact (List.append_nil _).symm
  | last name type =>
    simp only [Params.tokens, List.length_cons] at h
    obtain ⟨fuel, rfl⟩ : ∃ n, fuel = n + 2 := Nat.exists_eq_add_of_le' (by omega)
    unfold params
    refine accepts_peek_bind rfl ?_
    rw [if_neg (by simp)]
    refine accepts_bind rfl accepts_name (fun _ _ => trivial) fun r hword => ?_
    refine accepts_bind (v := []) rfl (accepts_type type) (fun _ _ => trivial) fun t ht => ?_
    refine accepts_bind rfl accepts_separator_close (fun _ => id) fun _ _ => ?_
    refine accepts_mono accepts_params_done (fun _ => id) ?_
    rintro _ rfl
    simp [Params.trees, Param.unspanned, hword, ht]
  | more name type rest ih =>
    simp only [Params.tokens, List.length_cons] at h
    obtain ⟨fuel, rfl⟩ := exists_succ_of_pos (show 0 < fuel by omega)
    unfold params
    refine accepts_peek_bind rfl ?_
    rw [if_neg (by simp)]
    refine accepts_bind rfl accepts_name (fun _ _ => trivial) fun r hword => ?_
    refine accepts_bind (v := .mark .comma :: rest.tokens) rfl (accepts_type type)
      (fun _ _ => trivial) fun t ht => ?_
    refine accepts_bind (v := rest.tokens) rfl accepts_separator_comma (fun _ _ => trivial)
      fun _ _ => ?_
    refine accepts_mono (ih (by omega)) (fun _ => id) fun ps hps => ?_
    simp [hps, Params.trees, Param.unspanned, hword, ht]

theorem accepts_result (type? : Option TypeName) :
    Accepts (Schema.resultTokens type?) (Before (.mark .openBrace))
      (· = type?.elim .void (·.1)) result := by
  cases type? with
  | none =>
    refine accepts_peek_end_bind fun t x ht => ?_
    rw [if_neg fun h => nomatch h.symm.trans (Option.some.inj ht)]
    exact accepts_pure rfl
  | some type =>
    refine accepts_peek_bind rfl ?_
    rw [if_pos rfl]
    refine accepts_advance_bind ?_
    exact accepts_bind (v := []) rfl (accepts_type type) (fun _ _ => trivial)
      fun _ ht => accepts_pure ht

/-! ### Values -/

theorem accepts_primary (p : Primary) :
    Accepts [p.token] Whatever (fun e => e.unspanned = p.tree) primary := by
  refine accepts_here_bind fun span => accepts_peek_bind rfl ?_
  cases p with
  | number | string | text =>
    exact accepts_advance_bind (accepts_pure (by rw [Expr.unspanned]; rfl))
  | bool b =>
    cases b with
    | true => exact accepts_advance_bind (accepts_pure (by rw [if_pos rfl, Expr.unspanned]; rfl))
    | false =>
      refine accepts_advance_bind (accepts_pure ?_)
      rw [if_neg (by decide), if_pos rfl, Expr.unspanned]
      rfl
  | name name =>
    obtain ⟨name, htrue, hfalse⟩ := name
    refine accepts_advance_bind (accepts_pure ?_)
    rw [if_neg htrue, if_neg hfalse, Expr.unspanned]
    rfl

theorem accepts_invocation_primary (p : Primary) {fuel : Nat} :
    Accepts [p.token] (Stops 5) (fun e => e.unspanned = p.tree) (invocation (fuel + 1)) := by
  unfold invocation
  refine accepts_bind (v := []) rfl (accepts_primary p) (fun _ _ => trivial) fun base hbase => ?_
  refine accepts_peek_end_bind fun t x ht => ?_
  split
  · exact absurd ht (not_stops_cons (by decide))
  · exact accepts_pure hbase

theorem accepts_factors_done {fuel : Nat} {left : Expr} :
    Accepts [] (Stops 4) (· = left) (factors (fuel + 1) left) := by
  unfold factors
  refine accepts_peek_end_bind fun t x ht => ?_
  split
  · rename_i op hop
    obtain ⟨o, rfl, -⟩ := exists_of_tightOperator? hop
    exact absurd ht (not_stops_cons (by cases o <;> decide))
  · exact accepts_pure rfl

theorem accepts_terms_done {fuel : Nat} {left : Expr} :
    Accepts [] (Stops 3) (· = left) (terms (fuel + 1) left) := by
  unfold terms
  refine accepts_peek_end_bind fun t x ht => ?_
  split
  · rename_i op hop
    obtain ⟨o, rfl, -⟩ := exists_of_looseOperator? hop
    exact absurd ht (not_stops_cons (by cases o <;> decide))
  · exact accepts_pure rfl

theorem accepts_arrows_done {fuel : Nat} {receiver : Expr} :
    Accepts [] (Stops 2) (· = receiver) (arrows (fuel + 1) receiver) := by
  unfold arrows
  refine accepts_peek_end_bind fun t x ht => ?_
  split
  · rename_i h
    subst h
    exact absurd ht (not_stops_cons (by decide))
  · exact accepts_pure rfl

/-- A bare name goes through all levels. -/
theorem accepts_arrow_name (n : BareName) {fuel : Nat} : Accepts [.ident n.1] (Stops 2)
    (fun e => e.unspanned = .read .none n.1) (arrow (fuel + 4)) := by
  have hfactor : Accepts [.ident n.1] (Stops 4) (fun e => e.unspanned = .read .none n.1)
      (factor (fuel + 2)) := by
    unfold factor
    refine accepts_bind (v := []) rfl (accepts_invocation_primary (.name n))
      (fun _ h => h.mono (by decide)) fun e he => ?_
    exact accepts_mono accepts_factors_done (fun _ => id) fun _ h => h ▸ he
  have hterm : Accepts [.ident n.1] (Stops 3) (fun e => e.unspanned = .read .none n.1)
      (term (fuel + 3)) := by
    unfold term
    refine accepts_bind (v := []) rfl hfactor (fun _ h => h.mono (by decide)) fun e he => ?_
    exact accepts_mono accepts_terms_done (fun _ => id) fun _ h => h ▸ he
  unfold arrow
  refine accepts_bind (v := []) rfl hterm (fun _ h => h.mono (by decide)) fun e he => ?_
  exact accepts_mono accepts_arrows_done (fun _ => id) fun _ h => h ▸ he

theorem eq_read_of_unspanned {e : Expr} {name : String} (h : e.unspanned = .read .none name) :
    ∃ span, e = .read span name := by
  cases e with
  | read span name' =>
    rw [Expr.unspanned] at h
    cases h
    exact ⟨span, rfl⟩
  | branch _ _ _ elseBody => cases elseBody <;> (rw [Expr.unspanned] at h; cases h)
  | _ =>
    rw [Expr.unspanned] at h
    cases h

theorem accepts_arguments_done {fuel : Nat} {read : List Expr} :
    Accepts [] (Before (.mark .closeParen)) (· = read.reverse) (arguments (fuel + 1) read) := by
  unfold arguments
  refine accepts_peek_end_bind fun t x ht => ?_
  rw [if_pos (Option.some.inj ht)]
  exact accepts_pure rfl

theorem accepts_tuple {fuel : Nat} {trees : List Expr}
    (h : Accepts w (Before (.mark .closeParen)) (fun es => es.map Expr.unspanned = trees)
      (arguments fuel [])) :
    Accepts (.mark .openParen :: (w ++ [.mark .closeParen])) Whatever
      (fun r => r.1.map Expr.unspanned = trees) (tuple (fuel + 1)) := by
  unfold tuple
  refine accepts_bind (v := w ++ [.mark .closeParen]) rfl accepts_expect (fun _ _ => trivial)
    fun start _ => ?_
  refine accepts_bind rfl h (fun _ _ => rfl) fun args hargs => ?_
  exact accepts_bind (v := []) rfl accepts_expect (fun _ _ => trivial) fun stop _ =>
    accepts_pure hargs

-- A level begins with the next one on the same tokens and with one less of fuel, down to a word that
-- is passed; so the bounds of two levels differ by one, and a repetition starts anew behind a token.
mutual

theorem accepts_value : ∀ (d : Grammar.Value) {fuel : Nat}, 16 * d.tokens.length ≤ fuel + 11 →
    Accepts d.tokens (Stops 1) (fun e => e.unspanned = d.tree) (value fuel)
  | .assign name stored, fuel, h => by
    simp only [Grammar.Value.tokens, List.length_cons] at h
    obtain ⟨fuel, rfl⟩ : ∃ n, fuel = n + 5 := Nat.exists_eq_add_of_le' (by omega)
    unfold value
    rw [Grammar.Value.tokens]
    refine accepts_bind (u := [.ident name.1]) rfl (accepts_arrow_name name)
      (fun _ _ => stops_cons.2 (by decide)) fun target htarget => ?_
    obtain ⟨span, rfl⟩ := eq_read_of_unspanned htarget
    refine accepts_peek_bind rfl (accepts_advance_bind ?_)
    refine accepts_bind (List.append_nil _).symm (accepts_value stored (by omega)) (fun _ => id)
      fun e he => accepts_pure ?_
    rw [Expr.unspanned, he, Grammar.Value.tree]
  | .arrow a, fuel, h => by
    have hpos := a.begins.length_pos
    rw [Grammar.Value.tokens] at h ⊢
    obtain ⟨fuel, rfl⟩ := exists_succ_of_pos (show 0 < fuel by omega)
    unfold value
    refine accepts_bind (List.append_nil _).symm (accepts_arrow a (by omega))
      (fun _ h => h.mono (by decide)) fun target htarget => ?_
    refine accepts_peek_end_bind fun t x ht => ?_
    split
    · exact absurd ht (not_stops_cons (by decide))
    · exact accepts_pure (by rw [htarget, Grammar.Value.tree])

theorem accepts_arrow : ∀ (d : Arrow) {fuel : Nat}, 16 * d.tokens.length ≤ fuel + 12 →
    Accepts d.tokens (Stops 2) (fun e => e.unspanned = d.tree) (arrow fuel)
  | .mk receiver calls, fuel, h => by
    have hpos := receiver.begins.length_pos
    simp only [Arrow.tokens, List.length_append] at h
    obtain ⟨fuel, rfl⟩ := exists_succ_of_pos (show 0 < fuel by omega)
    unfold arrow
    refine accepts_bind (by rw [Arrow.tokens]) (accepts_term receiver (by omega))
      (fun _ => calls.stops) fun e he => ?_
    refine accepts_mono (accepts_arrows calls (by omega)) (fun _ => id) fun e' he' => ?_
    rw [he', he, Arrow.tree]

theorem accepts_arrows : ∀ (d : Arrows) {fuel : Nat} {receiver : Expr},
    16 * d.tokens.length < fuel → Accepts d.tokens (Stops 2)
      (fun e => e.unspanned = d.tree receiver.unspanned) (arrows fuel receiver)
  | .done, fuel, receiver, h => by
    obtain ⟨fuel, rfl⟩ := exists_succ_of_pos (show 0 < fuel by omega)
    exact accepts_mono accepts_arrows_done (fun _ => id) fun _ h => h ▸ rfl
  | .call name args more, fuel, receiver, h => by
    simp only [Arrows.tokens, List.length_cons, List.length_append] at h
    obtain ⟨fuel, rfl⟩ : ∃ n, fuel = n + 2 := Nat.exists_eq_add_of_le' (by omega)
    unfold arrows
    refine accepts_peek_bind rfl ?_
    rw [if_pos rfl, Arrows.tokens]
    refine accepts_advance_bind ?_
    refine accepts_bind (u := [.ident name]) rfl accepts_name (fun _ _ => trivial)
      fun (word, _) hword => ?_
    obtain rfl : word = name := hword
    refine accepts_bind (v := more.tokens) (by simp)
      (accepts_tuple (accepts_arguments args (by omega)))
      (fun _ _ => trivial) fun (es, span) hes => ?_
    refine accepts_mono (accepts_arrows more (by omega)) (fun _ => id) fun e he => ?_
    have hes : es.map Expr.unspanned = args.trees := hes
    rw [he, Expr.unspanned, Expr.allUnspanned_eq_map, List.map_cons, hes, Arrows.tree]

theorem accepts_term : ∀ (d : Term) {fuel : Nat}, 16 * d.tokens.length ≤ fuel + 13 →
    Accepts d.tokens (Stops 3) (fun e => e.unspanned = d.tree) (term fuel)
  | .mk first more, fuel, h => by
    have hpos := first.begins.length_pos
    simp only [Term.tokens, List.length_append] at h
    obtain ⟨fuel, rfl⟩ := exists_succ_of_pos (show 0 < fuel by omega)
    unfold term
    refine accepts_bind (by rw [Term.tokens]) (accepts_factor first (by omega))
      (fun _ => more.stops) fun e he => ?_
    refine accepts_mono (accepts_terms more (by omega)) (fun _ => id) fun e' he' => ?_
    rw [he', he, Term.tree]

theorem accepts_terms : ∀ (d : Terms) {fuel : Nat} {left : Expr}, 16 * d.tokens.length < fuel →
    Accepts d.tokens (Stops 3) (fun e => e.unspanned = d.tree left.unspanned) (terms fuel left)
  | .done, fuel, left, h => by
    obtain ⟨fuel, rfl⟩ := exists_succ_of_pos (show 0 < fuel by omega)
    exact accepts_mono accepts_terms_done (fun _ => id) fun _ h => h ▸ rfl
  | .step op right more, fuel, left, h => by
    simp only [Terms.tokens, List.length_cons, List.length_append] at h
    obtain ⟨fuel, rfl⟩ := exists_succ_of_pos (show 0 < fuel by omega)
    unfold terms
    refine accepts_peek_bind (t := op.token) (by rw [Terms.tokens]; rfl) ?_
    rw [show looseOperator? op.token = some op.arithmetic by cases op <;> rfl, Terms.tokens]
    refine accepts_advance_bind ?_
    refine accepts_bind rfl (accepts_factor right (by omega)) (fun _ => more.stops) fun e he => ?_
    refine accepts_mono (accepts_terms more (by omega)) (fun _ => id) fun e' he' => ?_
    rw [he', combine, Expr.unspanned, he, Terms.tree]

theorem accepts_factor : ∀ (d : Factor) {fuel : Nat}, 16 * d.tokens.length ≤ fuel + 14 →
    Accepts d.tokens (Stops 4) (fun e => e.unspanned = d.tree) (factor fuel)
  | .mk first more, fuel, h => by
    have hpos := first.begins.length_pos
    simp only [Factor.tokens, List.length_append] at h
    obtain ⟨fuel, rfl⟩ := exists_succ_of_pos (show 0 < fuel by omega)
    unfold factor
    refine accepts_bind (by rw [Factor.tokens]) (accepts_invocation first (by omega))
      (fun _ => more.stops) fun e he => ?_
    refine accepts_mono (accepts_factors more (by omega)) (fun _ => id) fun e' he' => ?_
    rw [he', he, Factor.tree]

theorem accepts_factors : ∀ (d : Factors) {fuel : Nat} {left : Expr},
    16 * d.tokens.length < fuel → Accepts d.tokens (Stops 4)
      (fun e => e.unspanned = d.tree left.unspanned) (factors fuel left)
  | .done, fuel, left, h => by
    obtain ⟨fuel, rfl⟩ := exists_succ_of_pos (show 0 < fuel by omega)
    exact accepts_mono accepts_factors_done (fun _ => id) fun _ h => h ▸ rfl
  | .step op right more, fuel, left, h => by
    simp only [Factors.tokens, List.length_cons, List.length_append] at h
    obtain ⟨fuel, rfl⟩ := exists_succ_of_pos (show 0 < fuel by omega)
    unfold factors
    refine accepts_peek_bind (t := op.token) (by rw [Factors.tokens]; rfl) ?_
    rw [show tightOperator? op.token = some op.arithmetic by cases op <;> rfl, Factors.tokens]
    refine accepts_advance_bind ?_
    refine accepts_bind rfl (accepts_invocation right (by omega)) (fun _ => more.stops)
      fun e he => ?_
    refine accepts_mono (accepts_factors more (by omega)) (fun _ => id) fun e' he' => ?_
    rw [he', combine, Expr.unspanned, he, Factors.tree]

theorem accepts_invocation : ∀ (d : Invocation) {fuel : Nat},
    16 * d.tokens.length ≤ fuel + 15 →
      Accepts d.tokens (Stops 5) (fun e => e.unspanned = d.tree) (invocation fuel)
  | .primary p, fuel, h => by
    simp only [Invocation.tokens, List.length_singleton] at h
    obtain ⟨fuel, rfl⟩ := exists_succ_of_pos (show 0 < fuel by omega)
    rw [Invocation.tokens, Invocation.tree]
    exact accepts_invocation_primary p
  | .call name args, fuel, h => by
    simp only [Invocation.tokens, List.length_cons, List.length_append] at h
    obtain ⟨fuel, rfl⟩ : ∃ n, fuel = n + 2 := Nat.exists_eq_add_of_le' (by omega)
    unfold invocation
    rw [Invocation.tokens]
    refine accepts_bind (u := [.ident name.1]) rfl (accepts_primary (.name name))
      (fun _ _ => trivial) fun base hbase => ?_
    obtain ⟨span, rfl⟩ := eq_read_of_unspanned hbase
    refine accepts_peek_bind rfl ?_
    refine accepts_bind (List.append_nil _).symm
      (accepts_tuple (accepts_arguments args (by omega))) (fun _ _ => trivial)
      fun (es, tupleSpan) hes => accepts_pure ?_
    have hes : es.map Expr.unspanned = args.trees := hes
    rw [Expr.unspanned, Expr.allUnspanned_eq_map, hes, Invocation.tree]

theorem accepts_arguments : ∀ (d : Arguments) {fuel : Nat} {read : List Expr},
    16 * d.tokens.length < fuel → Accepts d.tokens (Before (.mark .closeParen))
      (fun es => es.map Expr.unspanned = read.reverse.map Expr.unspanned ++ d.trees)
        (arguments fuel read)
  | .none, fuel, read, h => by
    obtain ⟨fuel, rfl⟩ := exists_succ_of_pos (show 0 < fuel by omega)
    refine accepts_mono accepts_arguments_done (fun _ => id) ?_
    rintro _ rfl
    exact (List.append_nil _).symm
  | .last v, fuel, read, h => by
    have hpos := v.begins.length_pos
    rw [Arguments.tokens] at h ⊢
    obtain ⟨fuel, rfl⟩ : ∃ n, fuel = n + 2 := Nat.exists_eq_add_of_le' (by omega)
    obtain ⟨t, x, hv, ht⟩ := v.begins
    unfold arguments
    refine accepts_peek_bind (t := t) (by rw [hv]; rfl) ?_
    rw [if_neg (by rintro rfl; exact ht)]
    refine accepts_bind (List.append_nil _).symm (accepts_value v (by omega))
      (fun _ h => h.stops (by decide)) fun e he => ?_
    refine accepts_bind rfl accepts_separator_close (fun _ => id) fun _ _ => ?_
    refine accepts_mono accepts_arguments_done (fun _ => id) ?_
    rintro _ rfl
    simp [he, Arguments.trees]
  | .more v rest, fuel, read, h => by
    have hpos := v.begins.length_pos
    simp only [Arguments.tokens, List.length_append, List.length_cons] at h
    obtain ⟨fuel, rfl⟩ := exists_succ_of_pos (show 0 < fuel by omega)
    obtain ⟨t, x, hv, ht⟩ := v.begins
    unfold arguments
    rw [Arguments.tokens]
    refine accepts_peek_bind (t := t) (by rw [hv]; rfl) ?_
    rw [if_neg (by rintro rfl; exact ht)]
    refine accepts_bind rfl (accepts_value v (by omega)) (fun _ _ => stops_cons.2 (by decide))
      fun e he => ?_
    refine accepts_bind (v := rest.tokens) rfl accepts_separator_comma (fun _ _ => trivial)
      fun _ _ => ?_
    refine accepts_mono (accepts_arguments rest (by omega)) (fun _ => id) fun es hes => ?_
    simp [hes, he, Arguments.trees]

end

/-! ### Statements -/

theorem accepts_statements_done {fuel : Nat} {read : List Expr} :
    Accepts [] (Before (.mark .closeBrace)) (· = read.reverse) (statements (fuel + 1) read) := by
  unfold statements
  refine accepts_peek_end_bind fun t x ht => ?_
  rw [if_pos (Option.some.inj ht)]
  exact accepts_pure rfl

theorem accepts_block {fuel : Nat} {trees : List Expr}
    (h : Accepts w (Before (.mark .closeBrace)) (fun es => es.map Expr.unspanned = trees)
      (statements fuel [])) :
    Accepts (braced w) Whatever (fun e => e.unspanned = .block .none trees) (block (fuel + 1)) := by
  unfold block
  refine accepts_bind (v := w ++ [.mark .closeBrace]) rfl accepts_expect (fun _ _ => trivial)
    fun start _ => ?_
  refine accepts_bind rfl h (fun _ _ => rfl) fun body hbody => ?_
  refine accepts_bind (v := []) rfl accepts_expect (fun _ _ => trivial) fun stop _ =>
    accepts_pure ?_
  rw [Expr.unspanned, Expr.allUnspanned_eq_map, hbody]

/-- Other statements than values begin with keywords of their own. -/
theorem accepts_statement_value {fuel : Nat} (v : Grammar.Value)
    (h : 16 * v.tokens.length ≤ fuel + 11) :
    Accepts v.tokens Ends (fun e => e.unspanned = v.tree) (statement (fuel + 1)) := by
  obtain ⟨t, x, hv, ht⟩ := v.begins
  unfold statement
  refine accepts_peek_bind (t := t) (by rw [hv]; rfl) ?_
  split
  · exact ht.elim
  · exact ht.elim
  · exact ht.elim
  · exact accepts_mono (accepts_value v h) (fun _ h => h.value) fun _ => id

mutual

theorem accepts_statement : ∀ (d : Statement) {fuel : Nat}, 16 * d.tokens.length ≤ fuel + 10 →
    Accepts d.tokens Ends (fun e => e.unspanned = d.tree) (statement fuel)
  | .loop count body, fuel, h => by
    simp only [Statement.tokens, braced, List.length_cons, List.length_append] at h
    obtain ⟨fuel, rfl⟩ : ∃ n, fuel = n + 2 := Nat.exists_eq_add_of_le' (by omega)
    unfold statement
    rw [Statement.tokens]
    refine accepts_peek_bind rfl (accepts_here_bind fun start => accepts_advance_bind ?_)
    refine accepts_bind rfl (accepts_value count (by omega)) (fun _ _ => stops_cons.2 (by decide))
      fun e he => ?_
    refine accepts_bind (List.append_nil _).symm
      (accepts_block (accepts_statements body (by omega))) (fun _ _ => trivial)
      fun b hb => accepts_pure ?_
    rw [Expr.unspanned, he, hb, Statement.tree]
    rfl
  | .branch condition thenBody, fuel, h => by
    simp only [Statement.tokens, braced, List.length_cons, List.length_append] at h
    obtain ⟨fuel, rfl⟩ : ∃ n, fuel = n + 2 := Nat.exists_eq_add_of_le' (by omega)
    unfold statement
    rw [Statement.tokens]
    refine accepts_peek_bind rfl (accepts_here_bind fun start => accepts_advance_bind ?_)
    refine accepts_bind rfl (accepts_value condition (by omega))
      (fun _ _ => stops_cons.2 (by decide)) fun e he => ?_
    refine accepts_bind (List.append_nil _).symm
      (accepts_block (accepts_statements thenBody (by omega))) (fun _ _ => trivial)
      fun b hb => ?_
    refine accepts_peek_end_bind fun t x ht => ?_
    rw [if_neg (by rintro rfl; exact ht.branch rfl)]
    refine accepts_pure ?_
    rw [Expr.unspanned, he, hb, Statement.tree]
    rfl
  | .branchElse condition thenBody elseBody, fuel, h => by
    simp only [Statement.tokens, braced, List.length_cons, List.length_append] at h
    obtain ⟨fuel, rfl⟩ : ∃ n, fuel = n + 2 := Nat.exists_eq_add_of_le' (by omega)
    unfold statement
    rw [Statement.tokens]
    refine accepts_peek_bind rfl (accepts_here_bind fun start => accepts_advance_bind ?_)
    refine accepts_bind rfl (accepts_value condition (by omega))
      (fun _ _ => stops_cons.2 (by decide)) fun e he => ?_
    refine accepts_bind rfl (accepts_block (accepts_statements thenBody (by omega)))
      (fun _ _ => trivial) fun b hb => ?_
    refine accepts_peek_bind rfl ?_
    rw [if_pos rfl]
    refine accepts_advance_bind ?_
    refine accepts_bind (List.append_nil _).symm
      (accepts_block (accepts_statements elseBody (by omega))) (fun _ _ => trivial)
      fun b' hb' => accepts_pure ?_
    rw [Expr.unspanned, he, hb, hb', Statement.tree]
    rfl
  | .each name sequence body, fuel, h => by
    simp only [Statement.tokens, braced, List.length_cons, List.length_append] at h
    obtain ⟨fuel, rfl⟩ : ∃ n, fuel = n + 2 := Nat.exists_eq_add_of_le' (by omega)
    unfold statement
    rw [Statement.tokens]
    refine accepts_peek_bind rfl (accepts_here_bind fun start => accepts_advance_bind ?_)
    refine accepts_bind (u := [.ident name]) rfl accepts_name (fun _ _ => trivial)
      fun (word, _) hword => ?_
    obtain rfl : word = name := hword
    refine accepts_bind (u := [.keyword .among]) rfl (accepts_discard accepts_expect)
      (fun _ _ => trivial) fun _ _ => ?_
    refine accepts_bind rfl (accepts_value sequence (by omega))
      (fun _ _ => stops_cons.2 (by decide)) fun e he => ?_
    refine accepts_bind (List.append_nil _).symm
      (accepts_block (accepts_statements body (by omega))) (fun _ _ => trivial)
      fun b hb => accepts_pure ?_
    rw [Expr.unspanned, he, hb, Statement.tree]
    rfl
  | .value v, fuel, h => by
    have hpos := v.begins.length_pos
    rw [Statement.tokens] at h ⊢
    obtain ⟨fuel, rfl⟩ := exists_succ_of_pos (show 0 < fuel by omega)
    rw [Statement.tree]
    exact accepts_statement_value v (by omega)

theorem accepts_statements : ∀ (d : Statements) {fuel : Nat} {read : List Expr},
    16 * d.tokens.length < fuel → Accepts d.tokens (Before (.mark .closeBrace))
      (fun es => es.map Expr.unspanned = read.reverse.map Expr.unspanned ++ d.trees)
        (statements fuel read)
  | .done, fuel, read, h => by
    obtain ⟨fuel, rfl⟩ := exists_succ_of_pos (show 0 < fuel by omega)
    refine accepts_mono accepts_statements_done (fun _ => id) ?_
    rintro _ rfl
    exact (List.append_nil _).symm
  | .step s more, fuel, read, h => by
    obtain ⟨t, x, hs, ht⟩ := s.first
    have hpos : 0 < s.tokens.length := by simp [hs]
    simp only [Statements.tokens, List.length_append] at h
    obtain ⟨fuel, rfl⟩ := exists_succ_of_pos (show 0 < fuel by omega)
    unfold statements
    rw [Statements.tokens]
    refine accepts_peek_bind (t := t) (by rw [hs]; rfl) ?_
    rw [if_neg (by rintro rfl; exact ht)]
    refine accepts_bind rfl (accepts_statement s (by omega)) ?_ fun e he => ?_
    · intro y hy
      obtain ⟨z, rfl⟩ := List.head?_eq_some_iff.1 hy
      exact more.ends
    refine accepts_mono (accepts_statements more (by omega)) (fun _ => id) fun es hes => ?_
    simp [hes, he, Statements.trees]

end

/-! ### Schemas -/

/-- The end of input is seen, but it is not passed. -/
theorem accepts_end : Accepts [] (· = [.endOfInput]) (fun _ => True) (expect .endOfInput) := by
  intro read rest hread _ hend
  obtain rfl := List.map_eq_nil_iff.1 hread
  obtain ⟨⟨token, span⟩, rfl, rfl⟩ := List.map_eq_singleton_iff.1 hend
  exact ⟨span, rfl, trivial⟩

theorem accepts_schema (d : Grammar.Schema) {fuel : Nat} (h : 16 * d.tokens.length ≤ fuel) :
    Accepts d.tokens (· = [.endOfInput]) (fun s => s.unspanned = d.tree) (schema fuel) := by
  obtain ⟨name?, ps, type?, statements⟩ := d
  simp only [Schema.tokens, braced, List.length_cons, List.length_append] at h
  obtain ⟨fuel, rfl⟩ := exists_succ_of_pos (show 0 < fuel by omega)
  have tail {start : Span} : Accepts (.mark .openParen :: (ps.tokens ++ .mark .closeParen ::
      (Schema.resultTokens type? ++ braced statements.tokens))) (· = [.endOfInput])
      (fun s : EventScript.Schema =>
        s.unspanned = Grammar.Schema.tree ⟨name?, ps, type?, statements⟩) (do
      discard (expect (.mark .openParen))
      let params ← params (fuel + 1) []
      discard (expect (.mark .closeParen))
      let returns ← result
      let body ← block (fuel + 1)
      discard (expect .endOfInput)
      return ⟨name?, params, returns, body, start.merge body.span⟩) := by
    refine accepts_bind (u := [.mark .openParen]) rfl (accepts_discard accepts_expect)
      (fun _ _ => trivial) fun _ _ => ?_
    refine accepts_bind rfl (accepts_params ps (by omega)) (fun _ _ => rfl) fun params hparams => ?_
    refine accepts_bind (u := [.mark .closeParen]) rfl (accepts_discard accepts_expect)
      (fun _ _ => trivial) fun _ _ => ?_
    refine accepts_bind rfl (accepts_result type?) (fun _ _ => rfl) fun returns hreturns => ?_
    refine accepts_bind (List.append_nil _).symm
      (accepts_block (accepts_statements statements (by omega))) (fun _ _ => trivial)
      fun body hbody => ?_
    refine accepts_bind rfl (accepts_discard accepts_end) (fun _ => id) fun _ _ => accepts_pure ?_
    simp only [EventScript.Schema.unspanned, Schema.tree, hparams, hreturns, hbody]
    rfl
  unfold schema
  refine accepts_bind (u := [.keyword .schema]) rfl accepts_expect (fun _ _ => trivial)
    fun start _ => ?_
  cases name? with
  | none => exact accepts_peek_bind rfl tail
  | some name =>
    refine accepts_peek_bind rfl ?_
    refine accepts_bind (u := [.ident name]) rfl accepts_name (fun _ _ => trivial)
      fun (word, _) hword => ?_
    obtain rfl : word = name := hword
    exact tail

end Parser

end EventScript
