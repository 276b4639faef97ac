import EventScript.Proofs.Grammar.Sound

/-!
How far the parser looks. What a part of it answers depends only on the tokens that it passes and on
the one behind them, and what it refuses is the token that it looks at, where those passed can be
gone on with. More fuel changes nothing once there is an answer.
-/
namespace EventScript

/-! ### Passing tokens -/

/-- The tokens behind the first. The last token is never passed. -/
def pass : List SpannedToken → List SpannedToken
  | _ :: t :: ts => t :: ts
  | ts => ts

/-- The tokens behind the next ones. -/
def behind : Nat → List SpannedToken → List SpannedToken
  | 0, ts => ts
  | k + 1, ts => behind k (pass ts)

/-- The next tokens as they are come to, the last one over and over. -/
def firsts : Nat → List SpannedToken → List SpannedToken
  | 0, _ => []
  | k + 1, ts => front ts :: firsts k (pass ts)

section

variable {ts ts' us : List SpannedToken} {t : SpannedToken} {j k : Nat}

@[simp] theorem length_firsts (k : Nat) (ts : List SpannedToken) : (firsts k ts).length = k := by
  induction k generalizing ts with
  | zero => rfl
  | succ k ih => rw [firsts, List.length_cons, ih]

theorem firsts_add (j k : Nat) (ts : List SpannedToken) :
    firsts (j + k) ts = firsts j ts ++ firsts k (behind j ts) := by
  induction j generalizing ts with
  | zero => rw [Nat.zero_add]; rfl
  | succ j ih =>
    rw [Nat.add_right_comm, firsts, firsts, ih, List.cons_append, behind]

theorem firsts_succ (k : Nat) (ts : List SpannedToken) :
    firsts (k + 1) ts = firsts k ts ++ [front (behind k ts)] := firsts_add k 1 ts

/-- Tokens that are the same for longer are so for a shorter time. -/
theorem firsts_eq_of_add (h : firsts (j + k) ts = firsts (j + k) ts') :
    firsts j ts = firsts j ts' ∧ firsts k (behind j ts) = firsts k (behind j ts') := by
  rw [firsts_add, firsts_add] at h
  exact List.append_inj h (by rw [length_firsts, length_firsts])

theorem front_eq_of_firsts (h : firsts (k + 1) ts = firsts (k + 1) ts') : front ts = front ts' :=
  (List.cons.inj h).1

theorem next_eq_of_firsts (h : firsts (k + 1) ts = firsts (k + 1) ts') : next ts = next ts' := by
  rw [next_eq_front, next_eq_front, front_eq_of_firsts h]

theorem pass_cons (hts : ts ≠ []) : pass (t :: ts) = ts := by
  cases ts with
  | nil => exact absurd rfl hts
  | cons => rfl

theorem firsts_append (hus : us ≠ []) : firsts ts.length (ts ++ us) = ts := by
  induction ts with
  | nil => rfl
  | cons t ts ih =>
    rw [List.length_cons, firsts, List.cons_append, pass_cons (by simp [hus]), ih]
    rfl

theorem behind_append (hus : us ≠ []) : behind ts.length (ts ++ us) = us := by
  induction ts with
  | nil => rfl
  | cons t ts ih =>
    rw [List.length_cons, behind, List.cons_append, pass_cons (by simp [hus]), ih]

theorem firsts_firsts_append (hus : us ≠ []) : firsts k (firsts k ts ++ us) = firsts k ts := by
  have h := @firsts_append (firsts k ts) us hus
  rwa [length_firsts] at h

theorem behind_firsts_append (hus : us ≠ []) : behind k (firsts k ts ++ us) = us := by
  have h := @behind_append (firsts k ts) us hus
  rwa [length_firsts] at h

/-- What is behind the token that is looked at makes no difference. -/
theorem firsts_succ_append (us : List SpannedToken) :
    firsts (k + 1) (firsts k ts ++ front (behind k ts) :: us) = firsts (k + 1) ts := by
  rw [firsts_succ, firsts_firsts_append (List.cons_ne_nil _ _),
    behind_firsts_append (List.cons_ne_nil _ _), firsts_succ]
  rfl

theorem Ended.append (hts : ∀ t ∈ ts, t.token ≠ .endOfInput) (hus : Ended us) :
    Ended (ts ++ us) := by
  induction ts with
  | nil => exact hus
  | cons t ts ih =>
    obtain ⟨ht, hts⟩ := List.forall_mem_cons.1 hts
    exact .cons ht (ih hts)

theorem Ended.ne_nil (h : Ended ts) : ts ≠ [] := by
  cases h <;> exact List.cons_ne_nil _ _

/-- There are tokens that end, and are the same as far as those passed and the one behind. -/
theorem exists_ended (hinside : ∀ t ∈ firsts k ts, t.token ≠ .endOfInput) : ∃ us, us ≠ [] ∧
    Ended (firsts k ts ++ us) ∧ firsts (k + 1) (firsts k ts ++ us) = firsts (k + 1) ts := by
  have hfirsts := @firsts_succ_append ts k
  cases hfront : front (behind k ts) with
  | mk token span =>
    rw [hfront] at hfirsts
    by_cases htoken : token = .endOfInput
    · subst htoken
      exact ⟨_, List.cons_ne_nil _ _, .append hinside (.last span), hfirsts []⟩
    · exact ⟨_, List.cons_ne_nil _ _, .append hinside (.cons htoken (.last .none)), hfirsts _⟩

end

namespace Parser

variable {α β : Type} {p q : Parser β} {f g : β → Parser α}

/-- The parser refuses the tokens. -/
def Fails (p : Parser α) (ts : List SpannedToken) (e : CompileError) : Prop :=
  p ts = ExceptT.mk (some (.error e))

theorem fails_bind {ts : List SpannedToken} {e : CompileError} : Fails (p >>= f) ts e ↔
    Fails p ts e ∨ ∃ b mid, Returns p ts b mid ∧ Fails (f b) mid e := by
  change (p ts >>= fun r => f r.1 r.2 : ExceptT CompileError Option _) = _ ↔ _
  unfold Fails Returns
  cases p ts with
  | none => exact iff_of_false nofun (by rintro (h | ⟨_, _, h, _⟩) <;> cases h)
  | some r =>
    cases r with
    | error e' =>
      constructor
      · rintro ⟨⟩
        exact .inl rfl
      · rintro (⟨⟨⟩⟩ | ⟨_, _, h, _⟩)
        · rfl
        · cases h
    | ok r =>
      constructor
      · intro h
        exact .inr ⟨r.1, r.2, rfl, h⟩
      · rintro (h | ⟨b, mid, ⟨⟩, h⟩)
        · cases h
        · exact h

/-! ### Fuel -/

/-- Where the one parser has an answer, the other has the same. -/
def Extends (p q : Parser α) : Prop :=
  ∀ ts r, p ts = ExceptT.mk (some r) → q ts = ExceptT.mk (some r)

theorem extends_refl (p : Parser α) : Extends p p := fun _ _ h => h

theorem extends_outOfFuel {p : Parser α} : Extends outOfFuel p := nofun

theorem extends_bind (hp : Extends p q) (hf : ∀ b, Extends (f b) (g b)) :
    Extends (p >>= f) (q >>= g) := by
  intro ts r h
  change (p ts >>= fun r => f r.1 r.2 : ExceptT CompileError Option _) = _ at h
  change (q ts >>= fun r => g r.1 r.2 : ExceptT CompileError Option _) = _
  cases hx : p ts with
  | none =>
    rw [hx] at h
    cases h
  | some x =>
    rw [hx] at h
    rw [hp ts x hx]
    cases x with
    | error e => exact h
    | ok x => exact hf x.1 x.2 r h

mutual

theorem extends_block : ∀ fuel, Extends (block fuel) (block (fuel + 1))
  | 0 => extends_outOfFuel
  | fuel + 1 => by
    unfold block
    exact extends_bind (extends_refl _) fun _ =>
      extends_bind (extends_statements fuel []) fun _ => extends_refl _

theorem extends_statements : ∀ fuel (read : List Expr),
    Extends (statements fuel read) (statements (fuel + 1) read)
  | 0, _ => extends_outOfFuel
  | fuel + 1, read => by
    unfold statements
    refine extends_bind (extends_refl _) fun t => ?_
    split
    · exact extends_refl _
    · exact extends_bind (extends_statement fuel) fun s => extends_statements fuel (s :: read)

theorem extends_statement : ∀ fuel, Extends (statement fuel) (statement (fuel + 1))
  | 0 => extends_outOfFuel
  | fuel + 1 => by
    unfold statement
    refine extends_bind (extends_refl _) fun t => ?_
    split
    · refine extends_bind (extends_refl _) fun _ => extends_bind (extends_refl _) fun _ => ?_
      exact extends_bind (extends_value fuel) fun _ =>
        extends_bind (extends_block fuel) fun _ => extends_refl _
    · refine extends_bind (extends_refl _) fun _ => extends_bind (extends_refl _) fun _ => ?_
      refine extends_bind (extends_value fuel) fun _ => ?_
      refine extends_bind (extends_block fuel) fun _ => extends_bind (extends_refl _) fun t => ?_
      split
      · exact extends_bind (extends_refl _) fun _ =>
          extends_bind (extends_block fuel) fun _ => extends_refl _
      · exact extends_refl _
    · refine extends_bind (extends_refl _) fun _ => extends_bind (extends_refl _) fun _ => ?_
      refine extends_bind (extends_refl _) fun _ => extends_bind (extends_refl _) fun _ => ?_
      exact extends_bind (extends_value fuel) fun _ =>
        extends_bind (extends_block fuel) fun _ => extends_refl _
    · exact extends_value fuel

theorem extends_value : ∀ fuel, Extends (value fuel) (value (fuel + 1))
  | 0 => extends_outOfFuel
  | fuel + 1 => by
    unfold value
    refine extends_bind (extends_arrow fuel) fun _ => extends_bind (extends_refl _) fun _ => ?_
    split
    · exact extends_bind (extends_refl _) fun _ =>
        extends_bind (extends_value fuel) fun _ => extends_refl _
    · exact extends_refl _

theorem extends_arrow : ∀ fuel, Extends (arrow fuel) (arrow (fuel + 1))
  | 0 => extends_outOfFuel
  | fuel + 1 => by
    unfold arrow
    exact extends_bind (extends_term fuel) fun receiver => extends_arrows fuel receiver

theorem extends_arrows : ∀ fuel (receiver : Expr),
    Extends (arrows fuel receiver) (arrows (fuel + 1) receiver)
  | 0, _ => extends_outOfFuel
  | fuel + 1, receiver => by
    unfold arrows
    refine extends_bind (extends_refl _) fun _ => ?_
    split
    · refine extends_bind (extends_refl _) fun _ => extends_bind (extends_refl _) fun _ => ?_
      exact extends_bind (extends_tuple fuel) fun _ => extends_arrows fuel _
    · exact extends_refl _

theorem extends_term : ∀ fuel, Extends (term fuel) (term (fuel + 1))
  | 0 => extends_outOfFuel
  | fuel + 1 => by
    unfold term
    exact extends_bind (extends_factor fuel) fun left => extends_terms fuel left

theorem extends_terms : ∀ fuel (left : Expr), Extends (terms fuel left) (terms (fuel + 1) left)
  | 0, _ => extends_outOfFuel
  | fuel + 1, left => by
    unfold terms
    refine extends_bind (extends_refl _) fun _ => ?_
    split
    · exact extends_bind (extends_refl _) fun _ =>
        extends_bind (extends_factor fuel) fun _ => extends_terms fuel _
    · exact extends_refl _

theorem extends_factor : ∀ fuel, Extends (factor fuel) (factor (fuel + 1))
  | 0 => extends_outOfFuel
  | fuel + 1 => by
    unfold factor
    exact extends_bind (extends_invocation fuel) fun left => extends_factors fuel left

theorem extends_factors : ∀ fuel (left : Expr),
    Extends (factors fuel left) (factors (fuel + 1) left)
  | 0, _ => extends_outOfFuel
  | fuel + 1, left => by
    unfold factors
    refine extends_bind (extends_refl _) fun _ => ?_
    split
    · exact extends_bind (extends_refl _) fun _ =>
        extends_bind (extends_invocation fuel) fun _ => extends_factors fuel _
    · exact extends_refl _

theorem extends_invocation : ∀ fuel, Extends (invocation fuel) (invocation (fuel + 1))
  | 0 => extends_outOfFuel
  | fuel + 1 => by
    unfold invocation
    refine extends_bind (extends_refl _) fun _ => extends_bind (extends_refl _) fun _ => ?_
    split
    · exact extends_bind (extends_tuple fuel) fun _ => extends_refl _
    · exact extends_refl _

theorem extends_tuple : ∀ fuel, Extends (tuple fuel) (tuple (fuel + 1))
  | 0 => extends_outOfFuel
  | fuel + 1 => by
    unfold tuple
    exact extends_bind (extends_refl _) fun _ =>
      extends_bind (extends_arguments fuel []) fun _ => extends_refl _

theorem extends_arguments : ∀ fuel (read : List Expr),
    Extends (arguments fuel read) (arguments (fuel + 1) read)
  | 0, _ => extends_outOfFuel
  | fuel + 1, read => by
    unfold arguments
    refine extends_bind (extends_refl _) fun _ => ?_
    split
    · exact extends_refl _
    · refine extends_bind (extends_value fuel) fun _ => extends_bind (extends_refl _) fun _ => ?_
      exact extends_arguments fuel _

end

theorem extends_params : ∀ fuel (read : List Param),
    Extends (params fuel read) (params (fuel + 1) read)
  | 0, _ => extends_outOfFuel
  | fuel + 1, read => by
    unfold params
    refine extends_bind (extends_refl _) fun _ => ?_
    split
    · exact extends_refl _
    · refine extends_bind (extends_refl _) fun _ => extends_bind (extends_refl _) fun _ => ?_
      exact extends_bind (extends_refl _) fun _ => extends_params fuel _

theorem extends_schema (fuel : Nat) : Extends (schema fuel) (schema (fuel + 1)) := by
  unfold schema
  refine extends_bind (extends_refl _) fun _ => extends_bind (extends_refl _) fun t => ?_
  simp only
  split
  · refine extends_bind (extends_refl _) fun _ => extends_bind (extends_refl _) fun _ => ?_
    refine extends_bind (extends_refl _) fun _ => extends_bind (extends_params fuel []) fun _ => ?_
    refine extends_bind (extends_refl _) fun _ => extends_bind (extends_refl _) fun _ => ?_
    exact extends_bind (extends_block fuel) fun _ => extends_refl _
  · refine extends_bind (extends_refl _) fun _ => extends_bind (extends_refl _) fun _ => ?_
    refine extends_bind (extends_params fuel []) fun _ => extends_bind (extends_refl _) fun _ => ?_
    refine extends_bind (extends_refl _) fun _ => ?_
    exact extends_bind (extends_block fuel) fun _ => extends_refl _

/-! ### What is looked at -/

/-- On all tokens that begin with these, as far as the one behind the first `k`, the parser answers
this and passes the `k`, none of which is the end of input. -/
structure Answers (p : Parser α) (k : Nat) (ts : List SpannedToken) (a : α) : Prop where
  inside : ∀ t ∈ firsts k ts, t.token ≠ .endOfInput
  always : ∀ ts', firsts (k + 1) ts = firsts (k + 1) ts' → Returns p ts' a (behind k ts')

/-- On all tokens that begin with these, as far as the one behind the first `k`, the parser refuses
that one. The first `k` can be gone on with. -/
structure Refuses (L : List Token → Prop) (p : Parser α) (k : Nat) (ts : List SpannedToken)
    (e : CompileError) : Prop where
  inside : ∀ t ∈ firsts k ts, t.token ≠ .endOfInput
  kind : e.kind = .parse ∨ e.kind = .typeName
  span : e.span = (front (behind k ts)).span
  goesOn : ∃ x, L ((firsts k ts).map (·.token) ++ x)
  always : ∀ ts', firsts (k + 1) ts = firsts (k + 1) ts' → Fails p ts' e

section

variable {H : Token → Prop} {L L' L₁ : List Token → Prop} {Q : List Token → β → Prop}
  {ts rest mid : List SpannedToken} {a : α} {b : β} {e : CompileError} {j k : Nat} {t : Token}

theorem Returns.unique {p : Parser α} {a' : α} {rest' : List SpannedToken}
    (h : Returns p ts a rest) (h' : Returns p ts a' rest') : a = a' ∧ rest = rest' := by
  cases h.symm.trans h'
  exact ⟨rfl, rfl⟩

theorem Answers.rest_eq (h : Answers p k ts b) (hp : Returns p ts b mid) : mid = behind k ts :=
  (hp.unique (h.always ts rfl)).2

theorem forall_mem_firsts_add {P : SpannedToken → Prop} (h : ∀ t ∈ firsts k ts, P t)
    (h' : ∀ t ∈ firsts j (behind k ts), P t) : ∀ t ∈ firsts (k + j) ts, P t := by
  rw [firsts_add]
  exact List.forall_mem_append.2 ⟨h, h'⟩

theorem behind_add (j k : Nat) (ts : List SpannedToken) :
    behind (j + k) ts = behind k (behind j ts) := by
  induction j generalizing ts with
  | zero => rw [Nat.zero_add]; rfl
  | succ j ih => rw [Nat.add_right_comm, behind, behind, ih]

/-- The same to behind the one is the same to behind the other. -/
theorem firsts_eq_of_bind {ts' : List SpannedToken}
    (h : firsts (k + j + 1) ts = firsts (k + j + 1) ts') :
    firsts (k + 1) ts = firsts (k + 1) ts' ∧
      firsts (j + 1) (behind k ts) = firsts (j + 1) (behind k ts') := by
  refine ⟨(firsts_eq_of_add (k := j) ?_).1, (firsts_eq_of_add ?_).2⟩
  · rwa [Nat.add_right_comm k 1 j]
  · rwa [← Nat.add_assoc]

theorem Answers.bind (hp : Answers p k ts b) (hf : Answers (f b) j (behind k ts) a) :
    Answers (p >>= f) (k + j) ts a where
  inside := forall_mem_firsts_add hp.inside hf.inside
  always ts' h := by
    obtain ⟨hfirst, hsecond⟩ := firsts_eq_of_bind h
    rw [behind_add]
    exact returns_bind.2 ⟨b, _, hp.always ts' hfirst, hf.always _ hsecond⟩

theorem Refuses.mono {p : Parser α} (h : Refuses L p k ts e)
    (hL : ∀ w, L w → ∃ x, L' (w ++ x)) : Refuses L' p k ts e where
  inside := h.inside
  kind := h.kind
  span := h.span
  goesOn := by
    obtain ⟨x, hx⟩ := h.goesOn
    obtain ⟨y, hy⟩ := hL _ hx
    exact ⟨x ++ y, by rwa [← List.append_assoc]⟩
  always := h.always

theorem Refuses.bind_left (h : Refuses L p k ts e) : Refuses L (p >>= f) k ts e where
  inside := h.inside
  kind := h.kind
  span := h.span
  goesOn := h.goesOn
  always ts' hts' := fails_bind.2 (.inl (h.always ts' hts'))

theorem Refuses.bind_right (hp : Answers p k ts b)
    (hf : Refuses (fun w => L ((firsts k ts).map (·.token) ++ w)) (f b) j (behind k ts) e) :
    Refuses L (p >>= f) (k + j) ts e where
  inside := forall_mem_firsts_add hp.inside hf.inside
  kind := hf.kind
  span := by rw [behind_add]; exact hf.span
  goesOn := by
    obtain ⟨x, hx⟩ := hf.goesOn
    exact ⟨x, by rwa [firsts_add, List.map_append, List.append_assoc]⟩
  always ts' h := by
    obtain ⟨hfirst, hsecond⟩ := firsts_eq_of_bind h
    exact fails_bind.2 (.inr ⟨b, _, hp.always ts' hfirst, hf.always _ hsecond⟩)

/-- What is known of tokens that end holds of all others: an answer is as good on tokens that end
where it has been given. -/
theorem Answers.reads (h : Answers p k ts b) (hp : Reads H Q p) (hH : H (next ts)) :
    Q ((firsts k ts).map (·.token)) b := by
  obtain ⟨us, hus, hended, hfirsts⟩ := exists_ended h.inside
  rw [next_eq_of_firsts hfirsts.symm] at hH
  have hreturns := h.always _ hfirsts.symm
  rw [behind_firsts_append hus] at hreturns
  obtain ⟨-, read, hread, hQ⟩ := hp hended hH hreturns
  rwa [List.append_cancel_right hread]

/-- On tokens with one such in front, the parser looks no further than to the one behind those that
it passes, or to the one that it refuses, before which there is what can be gone on with. -/
def Tells (H : Token → Prop) (L : List Token → Prop) (p : Parser α) : Prop := ∀ ⦃ts⦄, H (next ts) →
  (∀ a rest, Returns p ts a rest → ∃ k, Answers p k ts a) ∧
    ∀ e, Fails p ts e → ∃ k, Refuses L p k ts e

theorem tells_mono {H' : Token → Prop} {p : Parser α} (h : Tells H L p) (hH : ∀ t, H' t → H t)
    (hL : ∀ w, L w → ∃ x, L' (w ++ x)) : Tells H' L' p := by
  intro ts hnext
  refine ⟨(h (hH _ hnext)).1, fun e he => ?_⟩
  obtain ⟨k, hk⟩ := (h (hH _ hnext)).2 e he
  exact ⟨k, hk.mono hL⟩

theorem tells_pure : Tells H L (pure a) := by
  refine fun ts _ => ⟨fun b rest h => ⟨0, nofun, fun ts' _ => ?_⟩, fun e h => nomatch h⟩
  obtain ⟨rfl, -⟩ := returns_pure.1 h
  exact returns_pure.2 ⟨rfl, rfl⟩

theorem tells_outOfFuel {α : Type} : Tells H L (outOfFuel : Parser α) :=
  fun _ _ => ⟨fun _ _ h => (nomatch h), fun _ h => nomatch h⟩

theorem tells_bind (hp : Tells H L₁ p) (hreads : Reads H Q p) (hL : ∀ w, L₁ w → ∃ x, L (w ++ x))
    (hf : ∀ b w, Q w b → Tells Any (fun w' => L (w ++ w')) (f b)) : Tells H L (p >>= f) := by
  intro ts hnext
  constructor
  · intro a rest h
    obtain ⟨b, mid, hb, ha⟩ := returns_bind.1 h
    obtain ⟨k, hk⟩ := (hp hnext).1 b mid hb
    obtain rfl := hk.rest_eq hb
    obtain ⟨j, hj⟩ := (hf b _ (hk.reads hreads hnext) trivial).1 a rest ha
    exact ⟨k + j, hk.bind hj⟩
  · intro e h
    rcases fails_bind.1 h with h | ⟨b, mid, hb, h⟩
    · obtain ⟨k, hk⟩ := (hp hnext).2 e h
      exact ⟨k, (hk.mono hL).bind_left⟩
    · obtain ⟨k, hk⟩ := (hp hnext).1 b mid hb
      obtain rfl := hk.rest_eq hb
      obtain ⟨j, hj⟩ := (hf b _ (hk.reads hreads hnext) trivial).2 e h
      exact ⟨k + j, .bind_right hk hj⟩

/-- A part that only looks at the token that comes next, and does not refuse it. -/
theorem tells_look_bind {look : Parser β} (see : SpannedToken → β)
    (hlook : ∀ ts, Returns look ts (see (front ts)) ts)
    (hf : ∀ t, H t.token → Tells (· = t.token) L (f (see t))) : Tells H L (look >>= f) := by
  intro ts hnext
  have hH := hnext
  rw [next_eq_front] at hH
  obtain ⟨hanswers, hrefuses⟩ := hf (front ts) hH (next_eq_front ts)
  constructor
  · intro a rest h
    obtain ⟨b, mid, hb, ha⟩ := returns_bind.1 h
    obtain ⟨rfl, rfl⟩ := hb.unique (hlook ts)
    obtain ⟨k, hk⟩ := hanswers a rest ha
    refine ⟨k, hk.inside, fun ts' hts' => returns_bind.2 ⟨_, _, hlook ts', ?_⟩⟩
    rw [← front_eq_of_firsts hts']
    exact hk.always ts' hts'
  · intro e h
    rcases fails_bind.1 h with h | ⟨b, mid, hb, h⟩
    · cases h.symm.trans (hlook ts)
    · obtain ⟨rfl, rfl⟩ := hb.unique (hlook ts)
      obtain ⟨k, hk⟩ := hrefuses e h
      refine ⟨k, hk.inside, hk.kind, hk.span, hk.goesOn, fun ts' hts' => ?_⟩
      refine fails_bind.2 (.inr ⟨_, _, hlook ts', ?_⟩)
      rw [← front_eq_of_firsts hts']
      exact hk.always ts' hts'

theorem tells_peek_bind {f : Token → Parser α} (hf : ∀ t, H t → Tells (· = t) L (f t)) :
    Tells H L (peek >>= f) :=
  tells_look_bind (·.token) (fun ts => by cases ts <;> rfl) fun t ht => hf t.token ht

theorem tells_here_bind {f : Span → Parser α} (hf : ∀ span, Tells H L (f span)) :
    Tells H L (here >>= f) :=
  tells_look_bind (·.span) (fun ts => by cases ts <;> rfl) fun t ht =>
    tells_mono (hf t.span) (by rintro _ rfl; exact ht) fun w hw => ⟨[], by rwa [List.append_nil]⟩

/-- A token that is known to come next is passed. -/
theorem tells_advance_bind {f : Unit → Parser α} (ht : t ≠ .endOfInput)
    (hf : Tells Any (fun w => L (t :: w)) (f ())) : Tells (· = t) L (advance >>= f) := by
  rintro ts rfl
  rw [next_eq_front] at ht hf
  have hadvance : Answers advance 1 ts () :=
    ⟨List.forall_mem_singleton.2 ht, fun ts' _ => rfl⟩
  constructor
  · intro a rest h
    obtain ⟨b, mid, hb, ha⟩ := returns_bind.1 h
    obtain rfl := hadvance.rest_eq hb
    obtain ⟨j, hj⟩ := (hf trivial).1 a rest ha
    exact ⟨1 + j, hadvance.bind hj⟩
  · intro e h
    rcases fails_bind.1 h with h | ⟨b, mid, hb, h⟩
    · cases h
    · obtain rfl := hadvance.rest_eq hb
      obtain ⟨j, hj⟩ := (hf trivial).2 e h
      exact ⟨1 + j, .bind_right hadvance hj⟩

/-- The token that comes next is refused. -/
theorem tells_unexpected {expected : String} (hL : ∃ x, L x) :
    Tells H L (unexpected expected : Parser α) := by
  have hfails (ts : List SpannedToken) : Fails (unexpected expected : Parser α) ts
      ⟨.unexpectedToken expected (front ts).token.describe, (front ts).span, none⟩ := by
    cases ts <;> rfl
  refine fun ts _ => ⟨fun _ _ h => (nomatch (hfails ts).symm.trans h), fun e h => ?_⟩
  cases (hfails ts).symm.trans h
  refine ⟨0, nofun, .inl rfl, rfl, hL, fun ts' hts' => ?_⟩
  rw [front_eq_of_firsts hts']
  exact hfails ts'

theorem tells_expect (ht : t ≠ .endOfInput) : Tells H (· = [t]) (expect t) := by
  refine tells_peek_bind fun u _ => ?_
  split
  · rename_i h
    subst h
    exact tells_here_bind fun _ => tells_advance_bind ht tells_pure
  · exact tells_unexpected ⟨_, rfl⟩

theorem tells_discard (hp : Tells H L p) (hreads : Reads H Q p) : Tells H L (discard p) :=
  tells_bind hp hreads (fun w hw => ⟨[], by rwa [List.append_nil]⟩) fun _ _ _ => tells_pure

theorem tells_discard_expect (ht : t ≠ .endOfInput) : Tells H (· = [t]) (discard (expect t)) :=
  tells_discard (tells_expect ht) (reads_expect ht)

theorem reads_discard_expect (ht : t ≠ .endOfInput) :
    Reads H (fun w _ => w = [t]) (discard (expect t)) := by
  intro ts a rest hts hH h
  obtain ⟨hended, read, hread, _, hw⟩ := reads_discard (reads_expect ht) hts hH h
  exact ⟨hended, read, hread, hw⟩

theorem tells_name {what : String} (hL : ∃ x, L x) : Tells H L (name what) := by
  refine tells_peek_bind fun u _ => ?_
  split
  · exact tells_here_bind fun _ => tells_advance_bind nofun tells_pure
  · exact tells_unexpected hL

theorem type_eq {word : String} (h : (front ts).token = .ident word) : type ts =
    (match StaticType.ofKeyword? word with
      | some type => pure (type, (front ts).span)
      | none => refuse (.unknownType word) (front ts).span : Parser _) (pass ts) := by
  cases ts with
  | nil => cases h
  | cons t ts =>
    obtain ⟨token, span⟩ := t
    obtain rfl : token = .ident word := h
    rfl

/-- A word that is no type is refused where it stands. -/
theorem tells_type : Tells H (fun w => ∃ t : Grammar.TypeName, w = [t.token]) type := by
  have hany : ∃ x, ∃ t : Grammar.TypeName, x = [t.token] := ⟨_, ⟨.any, by decide⟩, rfl⟩
  intro ts hnext
  by_cases hword : ∃ word, next ts = .ident word
  · obtain ⟨word, hword⟩ := hword
    rw [next_eq_front] at hword
    have htype (ts' : List SpannedToken) (h : firsts 1 ts = firsts 1 ts') := by
      rw [front_eq_of_firsts h] at hword
      have htype := type_eq hword
      rwa [← front_eq_of_firsts h] at htype
    cases hknown : StaticType.ofKeyword? word with
    | some known =>
      simp only [hknown] at htype
      refine ⟨fun a rest h => ⟨1, ?_, fun ts' hts' => ?_⟩, fun e h => ?_⟩
      · exact List.forall_mem_singleton.2 (by rw [hword]; nofun)
      · cases h.symm.trans (htype ts rfl)
        exact htype ts' (firsts_eq_of_add (k := 1) hts').1
      · cases h.symm.trans (htype ts rfl)
    | none =>
      simp only [hknown] at htype
      refine ⟨fun a rest h => ?_, fun e h => ⟨0, ?_⟩⟩
      · cases h.symm.trans (htype ts rfl)
      · cases h.symm.trans (htype ts rfl)
        exact ⟨nofun, .inr rfl, rfl, hany, htype⟩
  · have hname : Reads (fun t => ¬∃ word, t = .ident word) (fun _ _ => False)
        (name "type name") := by
      intro ts r rest hts hnext h
      obtain ⟨_, read, rfl, hread⟩ := reads_name (H := Any) hts trivial h
      obtain ⟨u, rfl, hu⟩ := List.map_eq_singleton_iff.1 hread
      exact absurd ⟨_, hu⟩ hnext
    exact tells_bind (tells_name hany) hname (fun w hw => ⟨[], by rwa [List.append_nil]⟩)
      (fun _ _ h => h.elim) hword

/-- A comma is passed, unless the closing parenthesis comes next. -/
theorem tells_separator_bind {f : Unit → Parser α} (hL : ∃ x, L (.mark .comma :: x))
    (hclose : Tells (· = .mark .closeParen) L (f ()))
    (hcomma : Tells Any (fun w => L (.mark .comma :: w)) (f ())) :
    Tells H L (separator >>= f) := by
  rw [separator, bind_assoc]
  refine tells_peek_bind fun t _ => ?_
  split
  · rename_i h
    subst h
    rwa [pure_bind]
  · refine tells_bind (tells_discard_expect (by decide)) (reads_discard_expect (by decide)) ?_
      fun _ w hw => ?_
    · rintro w rfl
      exact hL
    · rwa [hw]

/-- Where the closing parenthesis comes next, a loop is at its end. -/
theorem tells_close {p : Parser α} : Tells (· = .mark .closeParen) L
    (peek >>= fun t => if t = .mark .closeParen then pure a else p) :=
  tells_peek_bind fun t ht => by
    rw [if_pos ht]
    exact tells_pure

/-! ### Parameters and words -/

open Grammar

theorem tells_params_close {fuel : Nat} {read : List Param} :
    Tells (· = .mark .closeParen) L (params fuel read) := by
  cases fuel with
  | zero => exact tells_outOfFuel
  | succ fuel => exact tells_close

theorem tells_params (fuel : Nat) {H : Token → Prop} {read : List Param} :
    Tells H (fun w => ∃ d : Params, w = d.tokens) (params fuel read) := by
  induction fuel generalizing H read with
  | zero => exact tells_outOfFuel
  | succ fuel ih =>
    unfold params
    refine tells_peek_bind fun t _ => ?_
    split
    · exact tells_pure
    · refine tells_bind (tells_name (L := fun w => ∃ word, w = [.ident word]) ⟨_, "", rfl⟩)
        reads_name ?_ fun r w hw => ?_
      · rintro _ ⟨word, rfl⟩
        exact ⟨_, .last word ⟨.any, by decide⟩, rfl⟩
      subst hw
      refine tells_bind tells_type reads_type ?_ fun _ w h => ?_
      · rintro _ ⟨t, rfl⟩
        exact ⟨[], .last r.1 t, rfl⟩
      obtain ⟨t, rfl, -⟩ := h
      refine tells_separator_bind ⟨_, .more r.1 t .none, rfl⟩ tells_params_close
        (tells_mono ih (fun _ => id) ?_)
      rintro _ ⟨d, rfl⟩
      exact ⟨[], .more r.1 t d, by simp [Params.tokens]⟩

theorem tells_result : Tells H (fun w => ∃ type?, w = Schema.resultTokens type?) result := by
  refine tells_peek_bind fun t _ => ?_
  split
  · rename_i h
    subst h
    refine tells_advance_bind (by decide)
      (tells_bind tells_type reads_type ?_ fun _ _ _ => tells_pure)
    rintro _ ⟨t, rfl⟩
    exact ⟨[], some t, rfl⟩
  · exact tells_pure

theorem tells_primary : Tells H (fun w => ∃ p : Primary, w = [p.token]) primary := by
  refine tells_here_bind fun span => tells_peek_bind fun t _ => ?_
  split
  · exact tells_advance_bind nofun tells_pure
  · exact tells_advance_bind nofun tells_pure
  · exact tells_advance_bind nofun tells_pure
  · exact tells_advance_bind nofun tells_pure
  · exact tells_unexpected ⟨_, .bool true, rfl⟩

end

/-! ### Values -/

theorem tells_arguments_close {L : List Token → Prop} {fuel : Nat} {read : List Expr} :
    Tells (· = .mark .closeParen) L (arguments fuel read) := by
  cases fuel with
  | zero => exact tells_outOfFuel
  | succ fuel =>
    unfold arguments
    exact tells_close

open Grammar

mutual

theorem tells_value : ∀ fuel {H : Token → Prop},
    Tells H (fun w => ∃ d : Grammar.Value, w = d.tokens) (value fuel)
  | 0, _ => tells_outOfFuel
  | fuel + 1, H => by
    unfold value
    refine tells_bind (tells_arrow fuel) (reads_arrow fuel) ?_ fun target w ⟨a, hw, ha⟩ => ?_
    · rintro _ ⟨a, rfl⟩
      exact ⟨[], .arrow a, by simp [Grammar.Value.tokens]⟩
    subst hw
    refine tells_peek_bind fun t _ => ?_
    split
    · obtain ⟨n, hn, rfl⟩ := Arrow.eq_of_read (ha.symm.trans (by rw [Expr.unspanned]))
      refine tells_advance_bind nofun (tells_bind (tells_value fuel) (reads_value fuel) ?_
        fun _ _ _ => tells_pure)
      rintro _ ⟨v, rfl⟩
      exact ⟨[], .assign n v, by simp [hn, Grammar.Value.tokens]⟩
    · exact tells_pure

theorem tells_arrow : ∀ fuel {H : Token → Prop},
    Tells H (fun w => ∃ d : Arrow, w = d.tokens) (arrow fuel)
  | 0, _ => tells_outOfFuel
  | fuel + 1, H => by
    unfold arrow
    refine tells_bind (tells_term fuel) (reads_term fuel) ?_ fun receiver w ⟨d, hw, _⟩ => ?_
    · rintro _ ⟨d, rfl⟩
      exact ⟨[], .mk d .done, by simp [Arrow.tokens, Arrows.tokens]⟩
    subst hw
    refine tells_mono (tells_arrows fuel receiver) (fun _ => id) ?_
    rintro _ ⟨calls, rfl⟩
    exact ⟨[], .mk d calls, by simp [Arrow.tokens]⟩

theorem tells_arrows : ∀ fuel (receiver : Expr) {H : Token → Prop},
    Tells H (fun w => ∃ d : Arrows, w = d.tokens) (arrows fuel receiver)
  | 0, _, _ => tells_outOfFuel
  | fuel + 1, receiver, H => by
    unfold arrows
    refine tells_peek_bind fun t _ => ?_
    split
    · rename_i h
      subst h
      refine tells_advance_bind nofun (tells_bind
        (tells_name (L := fun w => ∃ word, w = [.ident word]) ⟨_, "", rfl⟩) reads_name ?_
          fun (name, _) w hw => ?_)
      · rintro _ ⟨word, rfl⟩
        exact ⟨_, .call word .none .done, rfl⟩
      obtain rfl : w = [.ident name] := hw
      refine tells_bind (tells_tuple fuel) (reads_tuple fuel) ?_ fun _ w ⟨d, hw, _⟩ => ?_
      · rintro _ ⟨d, rfl⟩
        exact ⟨[], .call name d .done, by simp [Arrows.tokens]⟩
      subst hw
      refine tells_mono (tells_arrows fuel _) (fun _ => id) ?_
      rintro _ ⟨more, rfl⟩
      exact ⟨[], .call name d more, by simp [Arrows.tokens]⟩
    · exact tells_pure

theorem tells_term : ∀ fuel {H : Token → Prop},
    Tells H (fun w => ∃ d : Term, w = d.tokens) (term fuel)
  | 0, _ => tells_outOfFuel
  | fuel + 1, H => by
    unfold term
    refine tells_bind (tells_factor fuel) (reads_factor fuel) ?_ fun first w ⟨d, hw, _⟩ => ?_
    · rintro _ ⟨d, rfl⟩
      exact ⟨[], .mk d .done, by simp [Term.tokens, Terms.tokens]⟩
    subst hw
    refine tells_mono (tells_terms fuel first) (fun _ => id) ?_
    rintro _ ⟨more, rfl⟩
    exact ⟨[], .mk d more, by simp [Term.tokens]⟩

theorem tells_terms : ∀ fuel (left : Expr) {H : Token → Prop},
    Tells H (fun w => ∃ d : Terms, w = d.tokens) (terms fuel left)
  | 0, _, _ => tells_outOfFuel
  | fuel + 1, left, H => by
    unfold terms
    refine tells_peek_bind fun t _ => ?_
    split
    · rename_i op hop
      obtain ⟨o, rfl, rfl⟩ := exists_of_looseOperator? hop
      refine tells_advance_bind (by cases o <;> nofun) ?_
      refine tells_bind (tells_factor fuel) (reads_factor fuel) ?_ fun right w ⟨d, hw, _⟩ => ?_
      · rintro _ ⟨d, rfl⟩
        exact ⟨[], .step o d .done, by simp [Terms.tokens]⟩
      subst hw
      refine tells_mono (tells_terms fuel _) (fun _ => id) ?_
      rintro _ ⟨more, rfl⟩
      exact ⟨[], .step o d more, by simp [Terms.tokens]⟩
    · exact tells_pure

theorem tells_factor : ∀ fuel {H : Token → Prop},
    Tells H (fun w => ∃ d : Factor, w = d.tokens) (factor fuel)
  | 0, _ => tells_outOfFuel
  | fuel + 1, H => by
    unfold factor
    refine tells_bind (tells_invocation fuel) (reads_invocation fuel) ?_
      fun first w ⟨d, hw, _⟩ => ?_
    · rintro _ ⟨d, rfl⟩
      exact ⟨[], .mk d .done, by simp [Factor.tokens, Factors.tokens]⟩
    subst hw
    refine tells_mono (tells_factors fuel first) (fun _ => id) ?_
    rintro _ ⟨more, rfl⟩
    exact ⟨[], .mk d more, by simp [Factor.tokens]⟩

theorem tells_factors : ∀ fuel (left : Expr) {H : Token → Prop},
    Tells H (fun w => ∃ d : Factors, w = d.tokens) (factors fuel left)
  | 0, _, _ => tells_outOfFuel
  | fuel + 1, left, H => by
    unfold factors
    refine tells_peek_bind fun t _ => ?_
    split
    · rename_i op hop
      obtain ⟨o, rfl, rfl⟩ := exists_of_tightOperator? hop
      refine tells_advance_bind (by cases o <;> nofun) ?_
      refine tells_bind (tells_invocation fuel) (reads_invocation fuel) ?_
        fun right w ⟨d, hw, _⟩ => ?_
      · rintro _ ⟨d, rfl⟩
        exact ⟨[], .step o d .done, by simp [Factors.tokens]⟩
      subst hw
      refine tells_mono (tells_factors fuel _) (fun _ => id) ?_
      rintro _ ⟨more, rfl⟩
      exact ⟨[], .step o d more, by simp [Factors.tokens]⟩
    · exact tells_pure

theorem tells_invocation : ∀ fuel {H : Token → Prop},
    Tells H (fun w => ∃ d : Invocation, w = d.tokens) (invocation fuel)
  | 0, _ => tells_outOfFuel
  | fuel + 1, H => by
    unfold invocation
    refine tells_bind tells_primary reads_primary ?_ fun base w ⟨p, hw, hp⟩ => ?_
    · rintro _ ⟨p, rfl⟩
      exact ⟨[], .primary p, by simp [Invocation.tokens]⟩
    subst hw
    refine tells_peek_bind fun t _ => ?_
    split
    · obtain ⟨n, rfl, rfl⟩ := Primary.eq_of_read (hp.symm.trans (by rw [Expr.unspanned]))
      refine tells_bind (tells_tuple fuel) (reads_tuple fuel) ?_ fun _ _ _ => tells_pure
      rintro _ ⟨d, rfl⟩
      exact ⟨[], .call n d, by simp [Invocation.tokens, Primary.token]⟩
    · exact tells_pure

theorem tells_tuple : ∀ fuel {H : Token → Prop}, Tells H (fun w => ∃ d : Arguments,
    w = .mark .openParen :: (d.tokens ++ [.mark .closeParen])) (tuple fuel)
  | 0, _ => tells_outOfFuel
  | fuel + 1, H => by
    unfold tuple
    refine tells_bind (tells_expect nofun) (reads_expect nofun) ?_ fun _ w hw => ?_
    · rintro _ rfl
      exact ⟨_, .none, rfl⟩
    subst hw
    refine tells_bind (tells_arguments fuel []) (reads_arguments fuel []) ?_
      fun _ w ⟨d, hw, _⟩ => ?_
    · rintro _ ⟨d, rfl⟩
      exact ⟨[.mark .closeParen], d, rfl⟩
    subst hw
    refine tells_bind (tells_expect nofun) (reads_expect nofun) ?_ fun _ _ _ => tells_pure
    rintro _ rfl
    exact ⟨[], d, by simp⟩

theorem tells_arguments : ∀ fuel (read : List Expr) {H : Token → Prop},
    Tells H (fun w => ∃ d : Arguments, w = d.tokens) (arguments fuel read)
  | 0, _, _ => tells_outOfFuel
  | fuel + 1, read, H => by
    unfold arguments
    refine tells_peek_bind fun t _ => ?_
    split
    · exact tells_pure
    · refine tells_bind (tells_value fuel) (reads_value fuel) ?_ fun _ w ⟨v, hw, _⟩ => ?_
      · rintro _ ⟨v, rfl⟩
        exact ⟨[], .last v, by simp [Arguments.tokens]⟩
      subst hw
      refine tells_separator_bind ⟨_, .more v .none, by rw [Arguments.tokens, Arguments.tokens]⟩
        tells_arguments_close (tells_mono (tells_arguments fuel _) (fun _ => id) ?_)
      rintro _ ⟨d, rfl⟩
      exact ⟨[], .more v d, by simp [Arguments.tokens]⟩

end

/-! ### Statements -/

/-- Some value. -/
def anyValue : Grammar.Value := .arrow (.mk (.mk (.mk (.primary (.bool true)) .done) .done) .done)

mutual

theorem tells_block : ∀ fuel {H : Token → Prop},
    Tells H (fun w => ∃ d : Statements, w = braced d.tokens) (block fuel)
  | 0, _ => tells_outOfFuel
  | fuel + 1, H => by
    unfold block
    refine tells_bind (tells_expect nofun) (reads_expect nofun) ?_ fun _ w hw => ?_
    · rintro _ rfl
      exact ⟨_, .done, rfl⟩
    subst hw
    refine tells_bind (tells_statements fuel []) (reads_statements fuel []) ?_
      fun _ w ⟨d, hw, _⟩ => ?_
    · rintro _ ⟨d, rfl⟩
      exact ⟨[.mark .closeBrace], d, rfl⟩
    subst hw
    refine tells_bind (tells_expect nofun) (reads_expect nofun) ?_ fun _ _ _ => tells_pure
    rintro _ rfl
    exact ⟨[], d, by simp [braced]⟩

theorem tells_statements : ∀ fuel (read : List Expr) {H : Token → Prop},
    Tells H (fun w => ∃ d : Statements, w = d.tokens) (statements fuel read)
  | 0, _, _ => tells_outOfFuel
  | fuel + 1, read, H => by
    unfold statements
    refine tells_peek_bind fun t _ => ?_
    split
    · exact tells_pure
    · refine tells_bind (tells_statement fuel) (reads_statement fuel) ?_ fun _ w ⟨d, hw, _⟩ => ?_
      · rintro _ ⟨d, rfl⟩
        exact ⟨[], .step d .done, by simp [Statements.tokens]⟩
      subst hw
      refine tells_mono (tells_statements fuel _) (fun _ => id) ?_
      rintro _ ⟨more, rfl⟩
      exact ⟨[], .step d more, by simp [Statements.tokens]⟩

theorem tells_statement : ∀ fuel {H : Token → Prop},
    Tells H (fun w => ∃ d : Statement, w = d.tokens) (statement fuel)
  | 0, _ => tells_outOfFuel
  | fuel + 1, H => by
    unfold statement
    refine tells_peek_bind fun t _ => ?_
    split
    · refine tells_here_bind fun _ => tells_advance_bind nofun ?_
      refine tells_bind (tells_value fuel) (reads_value fuel) ?_ fun _ w ⟨v, hw, _⟩ => ?_
      · rintro _ ⟨v, rfl⟩
        exact ⟨_, .loop v .done, by rw [Statement.tokens]⟩
      subst hw
      refine tells_bind (tells_block fuel) (reads_block fuel) ?_ fun _ _ _ => tells_pure
      rintro _ ⟨d, rfl⟩
      exact ⟨[], .loop v d, by simp [Statement.tokens]⟩
    · refine tells_here_bind fun _ => tells_advance_bind nofun ?_
      refine tells_bind (tells_value fuel) (reads_value fuel) ?_ fun _ w ⟨v, hw, _⟩ => ?_
      · rintro _ ⟨v, rfl⟩
        exact ⟨_, .branch v .done, by rw [Statement.tokens]⟩
      subst hw
      refine tells_bind (tells_block fuel) (reads_block fuel) ?_ fun _ w ⟨d, hw, _⟩ => ?_
      · rintro _ ⟨d, rfl⟩
        exact ⟨[], .branch v d, by simp [Statement.tokens]⟩
      subst hw
      refine tells_peek_bind fun t _ => ?_
      split
      · rename_i h
        subst h
        refine tells_advance_bind nofun ?_
        refine tells_bind (tells_block fuel) (reads_block fuel) ?_ fun _ _ _ => tells_pure
        rintro _ ⟨d', rfl⟩
        exact ⟨[], .branchElse v d d', by simp [Statement.tokens]⟩
      · exact tells_pure
    · refine tells_here_bind fun _ => tells_advance_bind nofun ?_
      refine tells_bind (tells_name (L := fun w => ∃ word, w = [.ident word]) ⟨_, "", rfl⟩)
        reads_name ?_ fun (name, _) w hw => ?_
      · rintro _ ⟨word, rfl⟩
        exact ⟨_, .each word anyValue .done, by rw [Statement.tokens]; rfl⟩
      obtain rfl : w = [.ident name] := hw
      refine tells_bind (tells_discard_expect nofun) (reads_discard_expect nofun) ?_
        fun _ w hw => ?_
      · rintro _ rfl
        exact ⟨_, .each name anyValue .done, by rw [Statement.tokens]; rfl⟩
      subst hw
      refine tells_bind (tells_value fuel) (reads_value fuel) ?_ fun _ w ⟨v, hw, _⟩ => ?_
      · rintro _ ⟨v, rfl⟩
        exact ⟨_, .each name v .done, by rw [Statement.tokens]; rfl⟩
      subst hw
      refine tells_bind (tells_block fuel) (reads_block fuel) ?_ fun _ _ _ => tells_pure
      rintro _ ⟨d, rfl⟩
      exact ⟨[], .each name v d, by simp [Statement.tokens]⟩
    · refine tells_mono (tells_value fuel) (fun _ _ => trivial) ?_
      rintro _ ⟨v, rfl⟩
      exact ⟨[], .value v, by simp [Statement.tokens]⟩

end

/-! ### Schemas -/

section

variable {α β : Type} {H : Token → Prop} {L L₁ : List Token → Prop} {Q : List Token → β → Prop}
  {p : Parser β}

/-- The parser answers only where the end of input comes next behind tokens of the language, and
else refuses what it looks at. -/
def TellsAll (L : List Token → Prop) (p : Parser α) : Prop := ∀ ts,
  (∀ a rest, Returns p ts a rest → ∃ k, (∀ t ∈ firsts k ts, t.token ≠ .endOfInput) ∧
    L ((firsts k ts).map (·.token)) ∧ next (behind k ts) = .endOfInput) ∧
    ∀ e, Fails p ts e → ∃ k, Refuses L p k ts e

theorem tellsAll_bind {f : β → Parser α} (hp : Tells Any L₁ p) (hreads : Reads Any Q p)
    (hL : ∀ w, L₁ w → ∃ x, L (w ++ x))
    (hf : ∀ b w, Q w b → TellsAll (fun w' => L (w ++ w')) (f b)) : TellsAll L (p >>= f) := by
  intro ts
  have hbind {b : β} {mid : List SpannedToken} (hb : Returns p ts b mid) : ∃ k,
      mid = behind k ts ∧ Answers p k ts b ∧
        TellsAll (fun w => L ((firsts k ts).map (·.token) ++ w)) (f b) := by
    obtain ⟨k, hk⟩ := (hp trivial).1 b mid hb
    exact ⟨k, hk.rest_eq hb, hk, hf b _ (hk.reads hreads trivial)⟩
  constructor
  · intro a rest h
    obtain ⟨b, mid, hb, ha⟩ := returns_bind.1 h
    obtain ⟨k, rfl, hk, hrest⟩ := hbind hb
    obtain ⟨j, hj, hL, hend⟩ := (hrest _).1 a rest ha
    refine ⟨k + j, forall_mem_firsts_add hk.inside hj, ?_, by rwa [behind_add]⟩
    rwa [firsts_add, List.map_append]
  · intro e h
    rcases fails_bind.1 h with h | ⟨b, mid, hb, h⟩
    · obtain ⟨k, hk⟩ := (hp trivial).2 e h
      exact ⟨k, (hk.mono hL).bind_left⟩
    · obtain ⟨k, rfl, hk, hrest⟩ := hbind hb
      obtain ⟨j, hj⟩ := (hrest _).2 e h
      exact ⟨k + j, .bind_right hk hj⟩

theorem tellsAll_peek_bind {f : Token → Parser α} (hf : ∀ t, TellsAll L (f t)) :
    TellsAll L (peek >>= f) := by
  have hpeek (ts : List SpannedToken) : Returns peek ts (next ts) ts := returns_peek.2 ⟨rfl, rfl⟩
  intro ts
  constructor
  · intro a rest h
    obtain ⟨t, mid, ht, ha⟩ := returns_bind.1 h
    obtain ⟨rfl, rfl⟩ := ht.unique (hpeek ts)
    exact (hf _ _).1 a rest ha
  · intro e h
    rcases fails_bind.1 h with h | ⟨t, mid, ht, h⟩
    · cases h
    · obtain ⟨rfl, rfl⟩ := ht.unique (hpeek ts)
      obtain ⟨k, hk⟩ := (hf _ _).2 e h
      refine ⟨k, hk.inside, hk.kind, hk.span, hk.goesOn, fun ts' hts' => ?_⟩
      refine fails_bind.2 (.inr ⟨_, _, hpeek ts', ?_⟩)
      rw [← next_eq_of_firsts hts']
      exact hk.always ts' hts'

/-- Only the end of input is left. -/
theorem tellsAll_end {a : α} (hL : L []) :
    TellsAll L (do discard (expect .endOfInput); return a) := by
  have hexpect {ts : List SpannedToken} {r : Except CompileError (Span × List SpannedToken)}
      (hne : next ts ≠ .endOfInput) (h : expect .endOfInput ts = ExceptT.mk (some r)) :
      (unexpected Token.endOfInput.describe : Parser Span) ts = ExceptT.mk (some r) := by
    rw [← h]
    exact (congrFun (if_neg hne : (if next ts = .endOfInput then _ else _) = _) ts).symm
  intro ts
  by_cases hend : next ts = .endOfInput
  · refine ⟨fun _ _ _ => ⟨0, nofun, hL, hend⟩, fun e h => ?_⟩
    have hreturns : Returns (expect .endOfInput) ts (front ts).span (pass ts) :=
      returns_bind.2 ⟨_, _, returns_peek.2 ⟨rfl, rfl⟩, by rw [if_pos hend]; cases ts <;> rfl⟩
    rcases fails_bind.1 h with h | ⟨_, _, _, h⟩
    · rcases (fails_bind (f := fun _ => pure ())).1 h with h | ⟨_, _, _, h⟩
      · cases h.symm.trans hreturns
      · cases h
    · cases h
  · have hrefuses : Tells (· ≠ .endOfInput) L (expect .endOfInput) :=
      tells_peek_bind fun t ht => by rw [if_neg ht]; exact tells_unexpected ⟨[], hL⟩
    constructor
    · intro b rest h
      obtain ⟨_, _, h, _⟩ := returns_bind.1 h
      obtain ⟨_, _, h, _⟩ := (returns_bind (f := fun _ => pure ())).1 h
      cases hexpect hend h
    · intro e h
      rcases fails_bind.1 h with h | ⟨_, _, _, h⟩
      · rcases (fails_bind (f := fun _ => pure ())).1 h with h | ⟨_, _, _, h⟩
        · obtain ⟨k, hk⟩ := (hrefuses hend).2 e h
          have hdiscard : Refuses L (discard (expect .endOfInput)) k ts e :=
            hk.bind_left (f := fun _ => pure ())
          exact ⟨k, hdiscard.bind_left⟩
        · cases h
      · cases h

end

/-- A schema is made of all tokens before the end of input, or else the first token is refused with
which they do not go on as one. -/
theorem tellsAll_schema (fuel : Nat) :
    TellsAll (fun w => ∃ d : Grammar.Schema, w = d.tokens) (schema fuel) := by
  have tail {start : Span} (name? : Option String) : TellsAll (fun w => ∃ d : Grammar.Schema,
      .keyword .schema :: (Schema.nameTokens name? ++ w) = d.tokens) (do
      discard (expect (.mark .openParen))
      let params ← params fuel []
      discard (expect (.mark .closeParen))
      let returns ← result
      let body ← block fuel
      discard (expect .endOfInput)
      return ⟨name?, params, returns, body, start.merge body.span⟩ :
        Parser EventScript.Schema) := by
    refine tellsAll_bind (tells_discard_expect (by decide)) (reads_discard_expect (by decide)) ?_
      fun _ w hw => ?_
    · rintro _ rfl
      exact ⟨_, Grammar.Schema.mk name? .none none .done, rfl⟩
    subst hw
    refine tellsAll_bind (tells_params fuel) reads_params ?_ fun params w h => ?_
    · rintro _ ⟨d, rfl⟩
      exact ⟨_, Grammar.Schema.mk name? d none .done, rfl⟩
    obtain ⟨d, rfl, -⟩ := h
    refine tellsAll_bind (tells_discard_expect (by decide)) (reads_discard_expect (by decide)) ?_
      fun _ w hw => ?_
    · rintro _ rfl
      exact ⟨_, Grammar.Schema.mk name? d none .done, rfl⟩
    subst hw
    refine tellsAll_bind tells_result reads_result ?_ fun returns w h => ?_
    · rintro _ ⟨type?, rfl⟩
      exact ⟨_, Grammar.Schema.mk name? d type? .done, rfl⟩
    obtain ⟨type?, rfl, -⟩ := h
    refine tellsAll_bind (tells_block fuel) (reads_block fuel) ?_ fun body w h => ?_
    · rintro _ ⟨b, rfl⟩
      exact ⟨[], ⟨name?, d, type?, b⟩, by simp [Schema.tokens]⟩
    obtain ⟨b, rfl, -⟩ := h
    exact tellsAll_end ⟨⟨name?, d, type?, b⟩, by simp [Schema.tokens]⟩
  unfold schema
  refine tellsAll_bind (tells_expect (by decide)) (reads_expect (by decide)) ?_ fun _ w hw => ?_
  · rintro _ rfl
    exact ⟨_, Grammar.Schema.mk none .none none .done, rfl⟩
  subst hw
  refine tellsAll_peek_bind fun t => ?_
  simp only
  split
  · refine tellsAll_bind (tells_name (L := fun w => ∃ word, w = [.ident word]) ⟨_, "", rfl⟩)
      reads_name ?_ fun r w hw => ?_
    · rintro _ ⟨word, rfl⟩
      exact ⟨_, Grammar.Schema.mk (some word) .none none .done, rfl⟩
    subst hw
    exact tail (some r.1)
  · exact tail none

end Parser

end EventScript
