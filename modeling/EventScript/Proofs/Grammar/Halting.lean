import EventScript.Proofs.Grammar.Lookahead
import EventScript.Proofs.Grammar.Openings

/-!
Where the parser comes to an end. Everything but statements does so on all tokens, with fuel that is
bounded by their number. Statements do unless the last token is one of its own: it is never passed,
so that it is read as the next statement again.
-/
namespace EventScript

/-! ### Tokens left -/

section

variable {ts : List SpannedToken} {k : Nat}

theorem length_pass_le (ts : List SpannedToken) : (pass ts).length ≤ ts.length := by
  match ts with
  | [] | [_] => exact Nat.le_refl _
  | _ :: _ :: _ => exact Nat.le_succ _

theorem length_behind_le (k : Nat) (ts : List SpannedToken) :
    (behind k ts).length ≤ ts.length := by
  induction k generalizing ts with
  | zero => exact Nat.le_refl _
  | succ k ih => exact Nat.le_trans (ih (pass ts)) (length_pass_le ts)

theorem length_le_add_behind (k : Nat) (ts : List SpannedToken) :
    ts.length ≤ k + (behind k ts).length := by
  induction k generalizing ts with
  | zero => exact Nat.le_add_left _ _
  | succ k ih =>
    have hpass : ts.length ≤ (pass ts).length + 1 := by
      match ts with
      | [] | [_] => exact Nat.le_succ _
      | _ :: _ :: _ => exact Nat.le_refl _
    have := ih (pass ts)
    rw [behind]
    omega

theorem pass_of_length_le (h : ts.length ≤ 1) : pass ts = ts := by
  match ts, h with
  | [], _ | [_], _ => rfl

theorem behind_of_length_le (k : Nat) (h : ts.length ≤ 1) : behind k ts = ts := by
  induction k with
  | zero => rfl
  | succ k ih => rw [behind, pass_of_length_le h, ih]

theorem eq_front_of_mem_firsts (h : ts.length ≤ 1) {t : SpannedToken} (ht : t ∈ firsts k ts) :
    t = front ts := by
  induction k with
  | zero => cases ht
  | succ k ih =>
    rw [firsts, pass_of_length_le h] at ht
    exact (List.mem_cons.1 ht).elim id ih

/-- Tokens have been passed where another one comes next. -/
theorem length_behind_lt (h : next (behind k ts) ≠ next ts) : (behind k ts).length < ts.length := by
  match ts, k with
  | [], _ | [_], _ => exact absurd (congrArg next (behind_of_length_le _ (by simp))) h
  | _ :: _ :: _, 0 => exact absurd rfl h
  | _ :: u :: us, k + 1 => exact Nat.lt_succ_of_le (length_behind_le k (u :: us))

theorem getLast?_behind (k : Nat) (ts : List SpannedToken) :
    (behind k ts).getLast? = ts.getLast? := by
  have hpass (ts : List SpannedToken) : (pass ts).getLast? = ts.getLast? := by
    match ts with
    | [] | [_] => rfl
    | _ :: _ :: _ => exact List.getLast?_cons_cons.symm
  induction k generalizing ts with
  | zero => rfl
  | succ k ih => rw [behind, ih, hpass]

end

namespace Parser

variable {α β : Type} {X Y : Prop} {p : Parser β} {f : β → Parser α} {ts rest : List SpannedToken}

/-- The parser comes to an end on the tokens, unless there is such a reason not to. -/
def EndsUnless (X : Prop) (p : Parser α) (ts : List SpannedToken) : Prop :=
  p ts = ExceptT.mk none → X

theorem ends_mono {p : Parser α} (h : EndsUnless X p ts) (hX : X → Y) : EndsUnless Y p ts :=
  fun hp => hX (h hp)

theorem ends_pure {a : α} : EndsUnless X (pure a) ts := nofun

theorem ends_bind (hp : EndsUnless X p ts)
    (hf : ∀ b mid, Returns p ts b mid → EndsUnless X (f b) mid) : EndsUnless X (p >>= f) ts := by
  intro h
  change (p ts >>= fun r => f r.1 r.2 : ExceptT CompileError Option _) = _ at h
  cases hx : p ts with
  | none => exact hp hx
  | some r =>
    rw [hx] at h
    cases r with
    | error e => cases h
    | ok r => exact hf r.1 r.2 hx h

theorem ends_peek_bind {f : Token → Parser α} (hf : EndsUnless X (f (next ts)) ts) :
    EndsUnless X (peek >>= f) ts :=
  ends_bind nofun fun t mid h => by
    obtain ⟨rfl, rfl⟩ := returns_peek.1 h
    exact hf

theorem ends_here_bind {f : Span → Parser α} (hf : ∀ span, EndsUnless X (f span) ts) :
    EndsUnless X (here >>= f) ts :=
  ends_bind nofun fun _ _ h => by
    cases h
    exact hf _

theorem ends_advance_bind {f : Unit → Parser α} (hf : EndsUnless X (f ()) (pass ts)) :
    EndsUnless X (advance >>= f) ts :=
  ends_bind nofun fun _ _ h => by
    cases h
    exact hf

theorem ends_unexpected {expected : String} : EndsUnless X (unexpected expected : Parser α) ts :=
  nofun

theorem ends_expect {t : Token} : EndsUnless X (expect t) ts := by
  refine ends_peek_bind ?_
  split
  · exact ends_here_bind fun _ => ends_advance_bind ends_pure
  · exact ends_unexpected

theorem ends_discard (hp : EndsUnless X p ts) : EndsUnless X (discard p) ts :=
  ends_bind hp fun _ _ _ => ends_pure

theorem ends_name {what : String} : EndsUnless X (name what) ts := by
  refine ends_peek_bind ?_
  split
  · exact ends_here_bind fun _ => ends_advance_bind ends_pure
  · exact ends_unexpected

theorem ends_type : EndsUnless X type ts := by
  refine ends_bind ends_name fun (word, span) _ _ => ?_
  simp only
  split
  · exact ends_pure
  · nofun

theorem ends_separator : EndsUnless X separator ts := by
  refine ends_peek_bind ?_
  split
  · exact ends_pure
  · exact ends_discard ends_expect

theorem ends_result : EndsUnless X result ts := by
  refine ends_peek_bind ?_
  split
  · exact ends_advance_bind (ends_bind ends_type fun _ _ _ => ends_pure)
  · exact ends_pure

theorem ends_primary : EndsUnless X primary ts := by
  refine ends_here_bind fun _ => ends_peek_bind ?_
  split
  · exact ends_advance_bind ends_pure
  · exact ends_advance_bind ends_pure
  · exact ends_advance_bind ends_pure
  · exact ends_advance_bind ends_pure
  · exact ends_unexpected

/-! ### Progress -/

section

variable {H : Token → Prop} {L : List Token → Prop} {Q : List Token → β → Prop}

theorem exists_passed {b : β} (htells : Tells H L p) (hreads : Reads H Q p) (hH : H (next ts))
    (h : Returns p ts b rest) : ∃ k, rest = behind k ts ∧ Q ((firsts k ts).map (·.token)) b := by
  obtain ⟨k, hk⟩ := (htells hH).1 b rest h
  exact ⟨k, hk.rest_eq h, hk.reads hreads hH⟩

theorem eq_pass_of_words {k : Nat} {t : Token} (h : (firsts k ts).map (·.token) = [t]) :
    next ts = t ∧ behind k ts = pass ts := by
  have hk := congrArg List.length h
  rw [List.length_map, length_firsts, List.length_singleton] at hk
  subst hk
  exact ⟨(next_eq_front ts).trans (List.singleton_inj.1 h), rfl⟩

theorem returns_expect {t : Token} {span : Span} (ht : t ≠ .endOfInput)
    (h : Returns (expect t) ts span rest) : next ts = t ∧ rest = pass ts := by
  obtain ⟨k, rfl, hk⟩ := exists_passed (H := Any) (tells_expect ht) (reads_expect ht) trivial h
  exact eq_pass_of_words hk

theorem returns_name {what : String} {r : String × Span} (h : Returns (name what) ts r rest) :
    next ts = .ident r.1 ∧ rest = pass ts := by
  obtain ⟨k, rfl, hk⟩ := exists_passed (H := Any) (L := fun _ => True) (tells_name ⟨[], trivial⟩)
    reads_name trivial h
  exact eq_pass_of_words hk

theorem returns_type {r : StaticType × Span} (h : Returns type ts r rest) :
    (∃ word, next ts = .ident word) ∧ rest = pass ts := by
  obtain ⟨k, rfl, t, hk, -⟩ := exists_passed (H := Any) tells_type reads_type trivial h
  exact ⟨⟨_, (eq_pass_of_words hk).1⟩, (eq_pass_of_words hk).2⟩

theorem returns_separator (h : Returns separator ts () rest) :
    ¬Grammar.StartsValue (next ts) ∧ ∃ k, rest = behind k ts := by
  obtain ⟨_, _, hpeek, h⟩ := returns_bind.1 h
  obtain ⟨rfl, rfl⟩ := returns_peek.1 hpeek
  split at h
  · rename_i hclose
    obtain ⟨-, rfl⟩ := returns_pure.1 h
    exact ⟨by rw [hclose]; exact id, 0, rfl⟩
  · obtain ⟨_, _, h, hpure⟩ := (returns_bind (f := fun _ => pure ())).1 h
    obtain ⟨-, rfl⟩ := returns_pure.1 hpure
    obtain ⟨hcomma, rfl⟩ := returns_expect (by decide) h
    exact ⟨by rw [hcomma]; exact id, 1, rfl⟩

/-- A value begins with the token that comes next, and the tokens left are those behind it. -/
def Takes (ts rest : List SpannedToken) : Prop :=
  Grammar.StartsValue (next ts) ∧ ∃ k, rest = behind k ts

theorem takes_of_passed {δ : Type} {tokens : δ → List Token} {tree : δ → Expr} {p : Parser Expr}
    {e : Expr} {L : List Token → Prop} (hbegins : ∀ d, Grammar.BeginsValue (tokens d))
    (htells : Tells Any L p)
    (hreads : Reads Any (fun w e => ∃ d, w = tokens d ∧ e.unspanned = tree d) p)
    (h : Returns p ts e rest) : Takes ts rest := by
  obtain ⟨k, rfl, d, hd, -⟩ := exists_passed htells hreads trivial h
  obtain ⟨t, w, hw, ht⟩ := hbegins d
  rw [hw] at hd
  cases k with
  | zero => cases hd
  | succ k =>
    refine ⟨?_, k + 1, rfl⟩
    rwa [next_eq_front, show (front ts).token = t from (List.cons.inj hd).1]

theorem takes_value {fuel : Nat} {e : Expr} (h : Returns (value fuel) ts e rest) : Takes ts rest :=
  takes_of_passed Grammar.Value.begins (tells_value fuel) (reads_value fuel) h

theorem takes_arrow {fuel : Nat} {e : Expr} (h : Returns (arrow fuel) ts e rest) : Takes ts rest :=
  takes_of_passed Grammar.Arrow.begins (tells_arrow fuel) (reads_arrow fuel) h

theorem takes_term {fuel : Nat} {e : Expr} (h : Returns (term fuel) ts e rest) : Takes ts rest :=
  takes_of_passed Grammar.Term.begins (tells_term fuel) (reads_term fuel) h

theorem takes_factor {fuel : Nat} {e : Expr} (h : Returns (factor fuel) ts e rest) :
    Takes ts rest :=
  takes_of_passed Grammar.Factor.begins (tells_factor fuel) (reads_factor fuel) h

theorem takes_invocation {fuel : Nat} {e : Expr} (h : Returns (invocation fuel) ts e rest) :
    Takes ts rest :=
  takes_of_passed Grammar.Invocation.begins (tells_invocation fuel) (reads_invocation fuel) h

theorem takes_primary {e : Expr} (h : Returns primary ts e rest) : Takes ts rest :=
  takes_of_passed (fun p : Grammar.Primary => ⟨_, [], rfl, p.startsValue⟩) tells_primary
    reads_primary h

theorem Takes.length_le (h : Takes ts rest) : rest.length ≤ ts.length := by
  obtain ⟨-, k, rfl⟩ := h
  exact length_behind_le k ts

/-- Where no value begins behind a value, the value has been passed. -/
theorem Takes.length_lt (h : Takes ts rest) (hnext : ¬Grammar.StartsValue (next rest)) :
    rest.length < ts.length := by
  obtain ⟨hstarts, k, rfl⟩ := h
  exact length_behind_lt fun heq => hnext (heq ▸ hstarts)

/-- Before a value a token that begins none has been passed. -/
theorem Takes.length_pass_lt (h : Takes (pass ts) rest) (hnext : ¬Grammar.StartsValue (next ts)) :
    (pass ts).length < ts.length :=
  length_behind_lt (k := 1) fun heq => hnext (heq ▸ h.1)

end

/-! ### Rounds -/

/-- What is read passes a token at least. -/
def Passes (p : Parser α) : Prop := ∀ ⦃ts a rest⦄, Returns p ts a rest → rest.length < ts.length

/-- A parameter, and what separates it from the next. -/
def param : Parser Param := do
  let (name, nameSpan) ← ident
  let (type, typeSpan) ← type
  separator
  return ⟨name, type, nameSpan.merge typeSpan⟩

theorem params_succ (fuel : Nat) (read : List Param) : params (fuel + 1) read = (do
    if (← peek) = .mark .closeParen then return read.reverse
    let p ← param
    params fuel (p :: read)) := by
  rw [params]
  simp only [param, bind_assoc, pure_bind]

/-- An argument, and what separates it from the next. -/
def argument (fuel : Nat) : Parser Expr := do
  let argument ← value fuel
  separator
  return argument

theorem arguments_succ (fuel : Nat) (read : List Expr) : arguments (fuel + 1) read = (do
    if (← peek) = .mark .closeParen then return read.reverse
    let e ← argument fuel
    arguments fuel (e :: read)) := by
  rw [arguments]
  simp only [argument, bind_assoc, pure_bind]

theorem passes_param : Passes param := by
  intro ts p rest h
  obtain ⟨r, mid, hident, h⟩ := returns_bind.1 h
  obtain ⟨r', mid', htype, h⟩ := returns_bind.1 h
  obtain ⟨_, _, hseparator, h⟩ := returns_bind.1 h
  obtain ⟨-, rfl⟩ := returns_pure.1 h
  obtain ⟨hname, rfl⟩ := returns_name hident
  obtain ⟨-, rfl⟩ := returns_type htype
  obtain ⟨hmark, k, rfl⟩ := returns_separator hseparator
  have hlt : (behind 2 ts).length < ts.length :=
    length_behind_lt fun heq => hmark <| by
      rw [show next (pass (pass ts)) = _ from heq, hname]
      trivial
  exact Nat.lt_of_le_of_lt (length_behind_le k _) hlt

theorem passes_argument (fuel : Nat) : Passes (argument fuel) := by
  intro ts e rest h
  obtain ⟨_, mid, hvalue, h⟩ := returns_bind.1 h
  obtain ⟨_, _, hseparator, h⟩ := returns_bind.1 h
  obtain ⟨-, rfl⟩ := returns_pure.1 h
  obtain ⟨hmark, k, rfl⟩ := returns_separator hseparator
  exact Nat.lt_of_le_of_lt (length_behind_le k _) ((takes_value hvalue).length_lt hmark)

theorem ends_params (fuel : Nat) {ts : List SpannedToken} {read : List Param}
    (h : ts.length < fuel) : EndsUnless X (params fuel read) ts := by
  induction fuel generalizing ts read with
  | zero => exact absurd h (Nat.not_lt_zero _)
  | succ fuel ih =>
    rw [params_succ]
    refine ends_peek_bind ?_
    split
    · exact ends_pure
    · have hparam : EndsUnless X param ts := ends_bind ends_name fun _ _ _ =>
        ends_bind ends_type fun _ _ _ => ends_bind ends_separator fun _ _ _ => ends_pure
      refine ends_bind hparam fun p mid hp => ih ?_
      have := passes_param hp
      omega

/-! ### Values -/

theorem not_startsValue_of_looseOperator? {t : Token} {op : Arithmetic}
    (h : looseOperator? t = some op) : ¬Grammar.StartsValue t := by
  obtain ⟨o, rfl, -⟩ := exists_of_looseOperator? h
  cases o <;> exact id

theorem not_startsValue_of_tightOperator? {t : Token} {op : Arithmetic}
    (h : tightOperator? t = some op) : ¬Grammar.StartsValue t := by
  obtain ⟨o, rfl, -⟩ := exists_of_tightOperator? h
  cases o <;> exact id

-- A level calls the next one with one less of fuel on the same tokens, and a call on all others has
-- passed one.
mutual

theorem ends_value : ∀ fuel {ts : List SpannedToken}, 16 * ts.length + 7 ≤ fuel →
    EndsUnless X (value fuel) ts
  | fuel + 1, ts, h => by
    unfold value
    refine ends_bind (ends_arrow fuel (by omega)) fun target mid htarget => ends_peek_bind ?_
    split
    · rename_i hequals
      have hlt := (takes_arrow htarget).length_lt (by rw [hequals]; exact id)
      have hle := length_pass_le mid
      exact ends_advance_bind (ends_bind (ends_value fuel (by omega)) fun _ _ _ => ends_pure)
    · exact ends_pure

theorem ends_arrow : ∀ fuel {ts : List SpannedToken}, 16 * ts.length + 6 ≤ fuel →
    EndsUnless X (arrow fuel) ts
  | fuel + 1, ts, h => by
    unfold arrow
    refine ends_bind (ends_term fuel (by omega)) fun receiver mid hreceiver => ?_
    have hle := (takes_term hreceiver).length_le
    exact ends_arrows fuel receiver (by omega)

theorem ends_arrows : ∀ fuel (receiver : Expr) {ts : List SpannedToken},
    16 * ts.length + 5 ≤ fuel → EndsUnless X (arrows fuel receiver) ts
  | fuel + 1, receiver, ts, h => by
    unfold arrows
    refine ends_peek_bind ?_
    split
    · rename_i harrow
      refine ends_advance_bind (ends_bind ends_name fun (name, _) mid hname => ?_)
      obtain ⟨hident, rfl⟩ := returns_name hname
      have hlt : (behind 1 ts).length < ts.length :=
        length_behind_lt fun heq => nomatch hident.symm.trans (heq.trans harrow)
      have hle : (pass (pass ts)).length ≤ (behind 1 ts).length := length_pass_le _
      refine ends_bind (ends_tuple fuel (by omega)) fun _ rest htuple => ?_
      obtain ⟨k, rfl, -⟩ :=
        exists_passed (H := Any) (tells_tuple fuel) (reads_tuple fuel) trivial htuple
      have hrest := length_behind_le k (pass (pass ts))
      exact ends_arrows fuel _ (by omega)
    · exact ends_pure

theorem ends_term : ∀ fuel {ts : List SpannedToken}, 16 * ts.length + 5 ≤ fuel →
    EndsUnless X (term fuel) ts
  | fuel + 1, ts, h => by
    unfold term
    refine ends_bind (ends_factor fuel (by omega)) fun left mid hleft => ?_
    have hle := (takes_factor hleft).length_le
    exact ends_terms fuel left (by omega)

theorem ends_terms : ∀ fuel (left : Expr) {ts : List SpannedToken},
    16 * ts.length + 4 ≤ fuel → EndsUnless X (terms fuel left) ts
  | fuel + 1, left, ts, h => by
    unfold terms
    refine ends_peek_bind ?_
    split
    · rename_i op hop
      have hle := length_pass_le ts
      refine ends_advance_bind (ends_bind (ends_factor fuel (by omega)) fun right mid hright => ?_)
      have hlt := (takes_factor hright).length_pass_lt (not_startsValue_of_looseOperator? hop)
      have hrest := (takes_factor hright).length_le
      exact ends_terms fuel _ (by omega)
    · exact ends_pure

theorem ends_factor : ∀ fuel {ts : List SpannedToken}, 16 * ts.length + 3 ≤ fuel →
    EndsUnless X (factor fuel) ts
  | fuel + 1, ts, h => by
    unfold factor
    refine ends_bind (ends_invocation fuel (by omega)) fun left mid hleft => ?_
    have hle := (takes_invocation hleft).length_le
    exact ends_factors fuel left (by omega)

theorem ends_factors : ∀ fuel (left : Expr) {ts : List SpannedToken},
    16 * ts.length + 2 ≤ fuel → EndsUnless X (factors fuel left) ts
  | fuel + 1, left, ts, h => by
    unfold factors
    refine ends_peek_bind ?_
    split
    · rename_i op hop
      have hle := length_pass_le ts
      refine ends_advance_bind
        (ends_bind (ends_invocation fuel (by omega)) fun right mid hright => ?_)
      have hlt := (takes_invocation hright).length_pass_lt (not_startsValue_of_tightOperator? hop)
      have hrest := (takes_invocation hright).length_le
      exact ends_factors fuel _ (by omega)
    · exact ends_pure

theorem ends_invocation : ∀ fuel {ts : List SpannedToken}, 16 * ts.length + 1 ≤ fuel →
    EndsUnless X (invocation fuel) ts
  | fuel + 1, ts, h => by
    unfold invocation
    refine ends_bind ends_primary fun base mid hbase => ends_peek_bind ?_
    split
    · rename_i hopen
      have hlt := (takes_primary hbase).length_lt (by rw [hopen]; exact id)
      exact ends_bind (ends_tuple fuel (by omega)) fun _ _ _ => ends_pure
    · exact ends_pure

theorem ends_tuple : ∀ fuel {ts : List SpannedToken}, 16 * ts.length + 9 ≤ fuel →
    EndsUnless X (tuple fuel) ts
  | fuel + 1, ts, h => by
    unfold tuple
    refine ends_bind ends_expect fun start mid hopen => ?_
    obtain ⟨-, rfl⟩ := returns_expect (by decide) hopen
    have hle := length_pass_le ts
    exact ends_bind (ends_arguments fuel [] (by omega)) fun _ _ _ =>
      ends_bind ends_expect fun _ _ _ => ends_pure

theorem ends_arguments : ∀ fuel (read : List Expr) {ts : List SpannedToken},
    16 * ts.length + 8 ≤ fuel → EndsUnless X (arguments fuel read) ts
  | fuel + 1, read, ts, h => by
    rw [arguments_succ]
    refine ends_peek_bind ?_
    split
    · exact ends_pure
    · have hargument : EndsUnless X (argument fuel) ts :=
        ends_bind (ends_value fuel (by omega)) fun _ _ _ =>
          ends_bind ends_separator fun _ _ _ => ends_pure
      refine ends_bind hargument fun e mid he => ends_arguments fuel _ ?_
      have := passes_argument fuel he
      omega

end

/-! ### Statements -/

/-- The last token is a literal or a word, and the tokens, with the last one over and over, are of
the language when closing braces come behind. -/
structure Unclosed (L : List Token → Prop) (ts : List SpannedToken) : Prop where
  last : ∃ t, ts.getLast? = some t ∧ Grammar.StartsValue t.token
  closes : ∃ n m, ts.length ≤ n ∧
    L ((firsts n ts).map (·.token) ++ Grammar.closing m)

section

variable {H : Token → Prop} {L L' L₁ : List Token → Prop} {Q : List Token → β → Prop} {k : Nat}

theorem Unclosed.mono (h : Unclosed L ts)
    (hL : ∀ w, L w → ∃ m, L' (w ++ Grammar.closing m)) : Unclosed L' ts := by
  obtain ⟨n, m, hn, hclosed⟩ := h.closes
  obtain ⟨m', hm'⟩ := hL _ hclosed
  refine ⟨h.last, n, m + m', hn, ?_⟩
  rwa [List.append_assoc, Grammar.closing, Grammar.closing,
    List.replicate_append_replicate] at hm'

theorem Unclosed.behind
    (h : Unclosed (fun w => L ((firsts k ts).map (·.token) ++ w)) (behind k ts)) :
    Unclosed L ts := by
  obtain ⟨n, m, hn, hclosed⟩ := h.closes
  have hle := length_le_add_behind k ts
  refine ⟨by simpa only [getLast?_behind] using h.last, k + n, m, by omega, ?_⟩
  rwa [firsts_add, List.map_append, List.append_assoc]

/-- The rule for parts that pass what is known of them. -/
theorem ends_bind_unclosed {p : Parser β} (hp : EndsUnless (Unclosed L ts) p ts)
    (htells : Tells H L₁ p) (hreads : Reads H Q p) (hH : H (next ts))
    (hf : ∀ b w mid, Returns p ts b mid → (∃ k, mid = behind k ts) → Q w b →
      EndsUnless (Unclosed (fun w' => L (w ++ w')) mid) (f b) mid) :
    EndsUnless (Unclosed L ts) (p >>= f) ts := by
  refine ends_bind hp fun b mid hb => ?_
  obtain ⟨k, rfl, hk⟩ := exists_passed htells hreads hH hb
  exact ends_mono (hf b _ _ hb ⟨k, rfl⟩ hk) .behind

theorem ends_advance_bind_unclosed {t : Token} {f : Unit → Parser α} (ht : next ts = t)
    (hf : EndsUnless (Unclosed (fun w => L (t :: w)) (pass ts)) (f ()) (pass ts)) :
    EndsUnless (Unclosed L ts) (advance >>= f) ts := by
  refine ends_advance_bind (ends_mono hf fun h => .behind (k := 1) ?_)
  subst ht
  rw [next_eq_front] at h
  exact h

end

open Grammar

/-- Where all tokens of a statement are the same one, it is a literal or a name. -/
theorem startsValue_of_statement {d : Statement} {t : Token} (h : ∀ u ∈ d.tokens, u = t) :
    StartsValue t := by
  have hvalue {v : Grammar.Value} (hv : ∀ u ∈ v.tokens, u = t) : StartsValue t := by
    obtain ⟨u, w, hw, hu⟩ := v.begins
    exact hv u (by simp [hw]) ▸ hu
  cases d with
  | loop count body => exact hvalue (v := count) fun u hu => h u (by simp [Statement.tokens, hu])
  | branch condition thenBody =>
    exact hvalue (v := condition) fun u hu => h u (by simp [Statement.tokens, hu])
  | branchElse condition thenBody elseBody =>
    exact hvalue (v := condition) fun u hu => h u (by simp [Statement.tokens, hu])
  | each name sequence body =>
    exact h (.ident name) (by simp [Statement.tokens]) ▸ trivial
  | value v => exact hvalue fun u hu => h u (by rwa [Statement.tokens])

/-- A statement passes a token, but for a literal or a name that is the only one left. -/
theorem statement_progress {fuel : Nat} {e : Expr} (h : Returns (statement fuel) ts e rest) :
    rest.length < ts.length ∨ ∃ t, ts = [t] ∧ rest = [t] ∧ StartsValue t.token := by
  obtain ⟨k, rfl, d, hd, -⟩ :=
    exists_passed (H := Any) (tells_statement fuel) (reads_statement fuel) trivial h
  by_cases hlength : ts.length ≤ 1
  · have hall : ∀ u ∈ d.tokens, u = (front ts).token := by
      rw [← hd]
      simp only [List.mem_map, forall_exists_index, and_imp, forall_apply_eq_imp_iff₂]
      exact fun u hu => congrArg _ (eq_front_of_mem_firsts hlength hu)
    have hstarts := startsValue_of_statement hall
    match ts, hlength with
    | [], _ => exact hstarts.elim
    | [t], hlength => exact .inr ⟨t, rfl, behind_of_length_le k hlength, hstarts⟩
  · match ts, k with
    | [], _ | [_], _ => exact absurd (by simp) hlength
    | _ :: _ :: _, 0 =>
      obtain ⟨t, w, hw, -⟩ := d.first
      cases hd.trans hw
    | _ :: u :: us, k + 1 => exact .inl (Nat.lt_succ_of_le (length_behind_le k (u :: us)))

mutual

theorem ends_block : ∀ fuel {ts : List SpannedToken}, 16 * ts.length + 10 ≤ fuel →
    EndsUnless (Unclosed (fun w => ∃ d : Statements, w = braced d.tokens) ts) (block fuel) ts
  | fuel + 1, ts, h => by
    unfold block
    refine ends_bind_unclosed ends_expect (tells_expect nofun) (reads_expect (H := Any) nofun)
      trivial fun _ w mid _ hmid hw => ?_
    obtain ⟨k, rfl⟩ := hmid
    subst hw
    have hle := length_behind_le k ts
    refine ends_bind (ends_mono (ends_statements fuel [] (by omega)) fun hopen => hopen.mono ?_)
      fun _ _ _ => ends_bind ends_expect fun _ _ _ => ends_pure
    rintro _ ⟨d, rfl⟩
    exact ⟨1, d, rfl⟩

theorem ends_statements : ∀ fuel (read : List Expr) {ts : List SpannedToken},
    16 * ts.length + 9 ≤ fuel →
      EndsUnless (Unclosed (fun w => ∃ d : Statements, w = d.tokens) ts) (statements fuel read) ts
  | fuel + 1, read, ts, h => by
    unfold statements
    refine ends_peek_bind ?_
    split
    · exact ends_pure
    · refine ends_bind_unclosed (ends_mono (ends_statement fuel (by omega)) fun h => h.mono ?_)
        (tells_statement fuel) (reads_statement (H := Any) fuel) trivial fun s w mid hs _ hd => ?_
      · rintro _ ⟨d, rfl⟩
        exact ⟨0, .step d .done, by simp [Statements.tokens]⟩
      obtain ⟨d, rfl, -⟩ := hd
      rcases statement_progress hs with hlt | ⟨t, rfl, rfl, ht⟩
      · refine ends_mono (ends_statements fuel _ (by omega)) fun hopen => hopen.mono ?_
        rintro _ ⟨more, rfl⟩
        exact ⟨0, .step d more, by simp [Statements.tokens]⟩
      · -- The last token is left, so that it is the next statement as well.
        intro _
        obtain ⟨last, hlast⟩ := exists_statement ht
        refine ⟨⟨t, rfl, ht⟩, 1, 0, Nat.le_refl _, .step d (.step last .done), ?_⟩
        simp [Statements.tokens, hlast, firsts, front]

theorem ends_statement : ∀ fuel {ts : List SpannedToken}, 16 * ts.length + 8 ≤ fuel →
    EndsUnless (Unclosed (fun w => ∃ d : Statement, w = d.tokens) ts) (statement fuel) ts
  | fuel + 1, ts, h => by
    have hpass := length_pass_le ts
    unfold statement
    refine ends_peek_bind ?_
    split
    · rename_i hnext
      refine ends_here_bind fun _ => ends_advance_bind_unclosed hnext ?_
      refine ends_bind_unclosed (ends_value fuel (by omega)) (tells_value fuel)
        (reads_value (H := Any) fuel) trivial fun _ w mid hcount _ ⟨v, hv, _⟩ => ?_
      subst hv
      have hlt := (takes_value hcount).length_pass_lt (by rw [hnext]; exact id)
      have hle := (takes_value hcount).length_le
      refine ends_bind (ends_mono (ends_block fuel (by omega)) fun hopen => hopen.mono ?_)
        fun _ _ _ => ends_pure
      rintro _ ⟨d, rfl⟩
      exact ⟨0, .loop v d, by simp [Statement.tokens]⟩
    · rename_i hnext
      refine ends_here_bind fun _ => ends_advance_bind_unclosed hnext ?_
      refine ends_bind_unclosed (ends_value fuel (by omega)) (tells_value fuel)
        (reads_value (H := Any) fuel) trivial fun _ w mid hcondition _ ⟨v, hv, _⟩ => ?_
      subst hv
      have hlt := (takes_value hcondition).length_pass_lt (by rw [hnext]; exact id)
      have hle := (takes_value hcondition).length_le
      refine ends_bind_unclosed (ends_mono (ends_block fuel (by omega)) fun hopen => hopen.mono ?_)
        (tells_block fuel) (reads_block (H := Any) fuel) trivial
        fun _ w rest _ hrest ⟨d, hd, _⟩ => ?_
      · rintro _ ⟨d, rfl⟩
        exact ⟨0, .branch v d, by simp [Statement.tokens]⟩
      subst hd
      obtain ⟨k, rfl⟩ := hrest
      have hrest := length_behind_le k mid
      refine ends_peek_bind ?_
      split
      · rename_i hotherwise
        refine ends_advance_bind_unclosed hotherwise ?_
        have hpass := length_pass_le (behind k mid)
        refine ends_bind (ends_mono (ends_block fuel (by omega)) fun hopen => hopen.mono ?_)
          fun _ _ _ => ends_pure
        rintro _ ⟨d', rfl⟩
        exact ⟨0, .branchElse v d d', by simp [Statement.tokens]⟩
      · exact ends_pure
    · rename_i hnext
      refine ends_here_bind fun _ => ends_advance_bind_unclosed hnext ?_
      refine ends_bind_unclosed ends_name (tells_name (L := fun _ => True) ⟨[], trivial⟩)
        (reads_name (H := Any)) trivial fun (name, _) w mid hname _ hw => ?_
      obtain rfl : w = [.ident name] := hw
      obtain ⟨hident, rfl⟩ := returns_name hname
      have hlt : (pass ts).length < ts.length :=
        length_behind_lt (k := 1) fun heq => nomatch hident.symm.trans (heq.trans hnext)
      refine ends_bind_unclosed (ends_discard ends_expect) (tells_discard_expect nofun)
        (reads_discard_expect (H := Any) nofun) trivial fun _ w mid _ hmid hw => ?_
      subst hw
      obtain ⟨k, rfl⟩ := hmid
      have hmid := length_behind_le k (pass (pass ts))
      have hpass' := length_pass_le (pass ts)
      refine ends_bind_unclosed (ends_value fuel (by omega)) (tells_value fuel)
        (reads_value (H := Any) fuel) trivial fun _ w mid hsequence _ ⟨v, hv, _⟩ => ?_
      subst hv
      have hle := (takes_value hsequence).length_le
      refine ends_bind (ends_mono (ends_block fuel (by omega)) fun hopen => hopen.mono ?_)
        fun _ _ _ => ends_pure
      rintro _ ⟨d, rfl⟩
      exact ⟨0, .each name v d, by simp [Statement.tokens]⟩
    · exact ends_value fuel (by omega)

end

/-! ### Schemas -/

/-- A schema is read to an end, unless closing braces make one of the tokens. -/
theorem ends_schema {fuel : Nat} {ts : List SpannedToken} (h : 16 * ts.length + 10 ≤ fuel) :
    EndsUnless (Unclosed (fun w => ∃ d : Grammar.Schema, w = d.tokens) ts) (schema fuel) ts := by
  have tail {start : Span} (name? : Option String) {ts : List SpannedToken}
      (h : 16 * ts.length + 10 ≤ fuel) : EndsUnless (Unclosed (fun w => ∃ d : Grammar.Schema,
        .keyword .schema :: (Schema.nameTokens name? ++ w) = d.tokens) ts) (do
      discard (expect (.mark .openParen))
      let params ← params fuel []
      discard (expect (.mark .closeParen))
      let returns ← result
      let body ← block fuel
      discard (expect .endOfInput)
      return ⟨name?, params, returns, body, start.merge body.span⟩ :
        Parser EventScript.Schema) ts := by
    refine ends_bind_unclosed (ends_discard ends_expect) (tells_discard_expect (by decide))
      (reads_discard_expect (H := Any) (by decide)) trivial fun _ w mid _ hmid hw => ?_
    obtain ⟨k, rfl⟩ := hmid
    subst hw
    have hk := length_behind_le k ts
    refine ends_bind_unclosed (ends_params fuel (by omega)) (tells_params fuel)
      (reads_params (H := Any)) trivial fun params w mid _ hmid hparams => ?_
    obtain ⟨j, rfl⟩ := hmid
    obtain ⟨d, rfl, -⟩ := hparams
    have hj := length_behind_le j (behind k ts)
    refine ends_bind_unclosed (ends_discard ends_expect) (tells_discard_expect (by decide))
      (reads_discard_expect (H := Any) (by decide)) trivial fun _ w mid _ hmid hw => ?_
    obtain ⟨i, rfl⟩ := hmid
    subst hw
    have hi := length_behind_le i (behind j (behind k ts))
    refine ends_bind_unclosed ends_result tells_result (reads_result (H := Any)) trivial
      fun returns w mid _ hmid hreturns => ?_
    obtain ⟨r, rfl⟩ := hmid
    obtain ⟨type?, rfl, -⟩ := hreturns
    have hr := length_behind_le r (behind i (behind j (behind k ts)))
    refine ends_bind (ends_mono (ends_block fuel (by omega)) fun hopen => hopen.mono ?_)
      fun _ _ _ => ends_bind (ends_discard ends_expect) fun _ _ _ => ends_pure
    rintro _ ⟨b, rfl⟩
    exact ⟨0, ⟨name?, d, type?, b⟩, by simp [Schema.tokens]⟩
  unfold schema
  refine ends_bind_unclosed ends_expect (tells_expect (by decide))
    (reads_expect (H := Any) (by decide)) trivial fun _ w mid _ hmid hw => ?_
  obtain ⟨k, rfl⟩ := hmid
  subst hw
  have hk := length_behind_le k ts
  refine ends_peek_bind ?_
  simp only
  split
  · refine ends_bind_unclosed ends_name (tells_name (L := fun _ => True) ⟨[], trivial⟩)
      (reads_name (H := Any)) trivial fun r w mid _ hmid hw => ?_
    obtain ⟨j, rfl⟩ := hmid
    subst hw
    have hj := length_behind_le j (behind k ts)
    exact tail (some r.1) (by omega)
  · exact tail none (by omega)

end Parser

end EventScript
