import EventScript.Syntax.Parser

/-!
What a part of the parser consumes. A part that answers takes tokens from the front and leaves the
rest; rules follow its steps and keep the tokens taken so far together with their spans.
-/
namespace EventScript

/-- Tokens that end where their only end of input is. -/
inductive Ended : List SpannedToken → Prop where
  | last (span : Span) : Ended [⟨.endOfInput, span⟩]
  | cons {t : SpannedToken} {ts : List SpannedToken} (token : t.token ≠ .endOfInput)
      (rest : Ended ts) : Ended (t :: ts)

/-- The token that comes next. -/
def next (ts : List SpannedToken) : Token := ts.head?.elim .endOfInput (·.token)

/-- The token that comes next, with its place. -/
def front (ts : List SpannedToken) : SpannedToken := ts.headD ⟨.endOfInput, .none⟩

theorem next_eq_front (ts : List SpannedToken) : next ts = (front ts).token := by
  cases ts <;> rfl

theorem Ended.exists_cons {ts : List SpannedToken} (h : Ended ts) (hne : next ts ≠ .endOfInput) :
    ∃ t u us, ts = t :: u :: us ∧ t.token = next ts ∧ Ended (u :: us) := by
  cases h with
  | last => exact absurd rfl hne
  | @cons t ts _ rest =>
    cases rest with
    | last span => exact ⟨t, _, _, rfl, rfl, .last span⟩
    | cons token rest => exact ⟨t, _, _, rfl, rfl, .cons token rest⟩

namespace Parser

variable {α β : Type} {p : Parser β} {f : β → Parser α}

/-- The parser answers this and leaves these tokens. -/
def Returns (p : Parser α) (ts : List SpannedToken) (a : α) (rest : List SpannedToken) : Prop :=
  p ts = ExceptT.mk (some (.ok (a, rest)))

theorem returns_pure {a b : α} {ts rest : List SpannedToken} :
    Returns (pure a) ts b rest ↔ b = a ∧ rest = ts := by
  constructor
  · rintro ⟨⟩
    exact ⟨rfl, rfl⟩
  · rintro ⟨rfl, rfl⟩
    rfl

theorem returns_bind {ts rest : List SpannedToken} {a : α} : Returns (p >>= f) ts a rest ↔
    ∃ b mid, Returns p ts b mid ∧ Returns (f b) mid a rest := by
  change (p ts >>= fun r => f r.1 r.2 : ExceptT CompileError Option _) = _ ↔ _
  unfold Returns
  cases p ts with
  | none => exact iff_of_false nofun nofun
  | some r =>
    cases r with
    | error e => exact iff_of_false nofun nofun
    | ok r =>
      constructor
      · intro h
        exact ⟨r.1, r.2, rfl, h⟩
      · rintro ⟨b, mid, ⟨⟩, h⟩
        exact h

theorem returns_peek {ts rest : List SpannedToken} {t : Token} :
    Returns peek ts t rest ↔ t = next ts ∧ rest = ts := by
  constructor
  · rintro ⟨⟩
    exact ⟨rfl, rfl⟩
  · rintro ⟨rfl, rfl⟩
    rfl

theorem returns_here {ts rest : List SpannedToken} {span : Span} :
    Returns here ts span rest ↔ span = (front ts).span ∧ rest = ts := by
  constructor
  · rintro ⟨⟩
    exact ⟨by cases ts <;> rfl, rfl⟩
  · rintro ⟨rfl, rfl⟩
    cases rest <;> rfl

/-- What the parser answers, and the tokens that it takes to get there, have the property, if the
token that comes next does. -/
def Consumes (H : SpannedToken → Prop) (P : List SpannedToken → α → Prop) (p : Parser α) : Prop :=
  ∀ ⦃ts a rest⦄, Ended ts → H (front ts) → Returns p ts a rest →
    Ended rest ∧ ∃ consumed, ts = consumed ++ rest ∧ P consumed a

section

variable {H : SpannedToken → Prop} {P : List SpannedToken → α → Prop}
  {Q : List SpannedToken → β → Prop} {t : Token}

theorem consumes_mono {H' : SpannedToken → Prop} {P' : List SpannedToken → α → Prop} {p : Parser α}
    (h : Consumes H P p) (hH : ∀ t, H' t → H t) (hP : ∀ w a, P w a → P' w a) :
    Consumes H' P' p := by
  intro ts a rest hts hnext hp
  obtain ⟨hrest, consumed, heq, hconsumed⟩ := h hts (hH _ hnext) hp
  exact ⟨hrest, consumed, heq, hP _ _ hconsumed⟩

theorem consumes_pure {a : α} (h : P [] a) : Consumes H P (pure a) := by
  intro ts b rest hts _ hp
  obtain ⟨rfl, rfl⟩ := returns_pure.1 hp
  exact ⟨hts, [], rfl, h⟩

theorem consumes_outOfFuel : Consumes H P outOfFuel := fun _ _ _ _ _ hp => nomatch hp

theorem consumes_refuse {complaint : CompileError.Complaint} {span : Span} :
    Consumes H P (refuse complaint span) := fun _ _ _ _ _ hp => nomatch hp

theorem consumes_bind (hp : Consumes H Q p)
    (hf : ∀ b w, Q w b → Consumes (fun _ => True) (fun w' a => P (w ++ w') a) (f b)) :
    Consumes H P (p >>= f) := by
  intro ts a rest hts hnext h
  obtain ⟨b, mid, hb, ha⟩ := returns_bind.1 h
  obtain ⟨hmid, first, rfl, hfirst⟩ := hp hts hnext hb
  obtain ⟨hrest, second, rfl, hsecond⟩ := hf b _ hfirst hmid trivial ha
  exact ⟨hrest, first ++ second, (List.append_assoc _ _ _).symm, hsecond⟩

theorem consumes_peek_bind {f : Token → Parser α}
    (hf : ∀ t, Consumes (fun u => H u ∧ u.token = t) P (f t)) : Consumes H P (peek >>= f) := by
  intro ts a rest hts hnext h
  obtain ⟨t, mid, hpeek, ha⟩ := returns_bind.1 h
  obtain ⟨rfl, rfl⟩ := returns_peek.1 hpeek
  exact hf _ hts ⟨hnext, (next_eq_front _).symm⟩ ha

theorem consumes_here_bind {f : Span → Parser α}
    (hf : ∀ span, Consumes (fun u => H u ∧ u.span = span) P (f span)) :
    Consumes H P (here >>= f) := by
  intro ts a rest hts hnext h
  obtain ⟨span, mid, hhere, ha⟩ := returns_bind.1 h
  obtain ⟨rfl, rfl⟩ := returns_here.1 hhere
  exact hf _ hts ⟨hnext, rfl⟩ ha

/-- A token that is known to come next is consumed. -/
theorem consumes_advance_bind {f : Unit → Parser α} (ht : ∀ u, H u → u.token ≠ .endOfInput)
    (hf : ∀ u, H u → Consumes (fun _ => True) (fun w a => P (u :: w) a) (f ())) :
    Consumes H P (advance >>= f) := by
  intro ts a rest hts hnext h
  obtain ⟨⟨⟩, mid, hadvance, ha⟩ := returns_bind.1 h
  obtain ⟨u, v, vs, rfl, -, hended⟩ := hts.exists_cons (next_eq_front ts ▸ ht _ hnext)
  cases hadvance
  obtain ⟨hrest, consumed, heq, hconsumed⟩ := hf u hnext hended trivial ha
  exact ⟨hrest, u :: consumed, by rw [heq, List.cons_append], hconsumed⟩

theorem consumes_unexpected {expected : String} : Consumes H P (unexpected expected) :=
  consumes_peek_bind fun _ => consumes_here_bind fun _ => consumes_refuse

theorem consumes_expect (ht : t ≠ .endOfInput) :
    Consumes H (fun w span => w = [⟨t, span⟩]) (expect t) := by
  refine consumes_peek_bind fun u => ?_
  split
  · rename_i h
    subst h
    refine consumes_here_bind fun span => consumes_advance_bind ?_ ?_
    · rintro _ ⟨⟨-, rfl⟩, -⟩
      exact ht
    · rintro _ ⟨⟨-, rfl⟩, rfl⟩
      exact consumes_pure rfl
  · exact consumes_unexpected

theorem consumes_discard {p : Parser α} (hp : Consumes H P p) :
    Consumes H (fun w _ => ∃ a, P w a) (discard p) :=
  consumes_bind hp fun a w h => consumes_pure ⟨a, by rwa [List.append_nil]⟩

theorem consumes_name {what : String} :
    Consumes H (fun w r => w = [⟨.ident r.1, r.2⟩]) (name what) := by
  refine consumes_peek_bind fun u => ?_
  split
  · refine consumes_here_bind fun span => consumes_advance_bind ?_ ?_
    · rintro _ ⟨⟨-, htoken⟩, -⟩
      rw [htoken]
      nofun
    · rintro u ⟨⟨-, htoken⟩, hspan⟩
      exact consumes_pure (by rw [← htoken, ← hspan])
  · exact consumes_unexpected

theorem consumes_type : Consumes H (fun w r => w = [⟨.ident r.1.name, r.2⟩] ∧
    StaticType.ofKeyword? r.1.name = some r.1) type := by
  refine consumes_bind consumes_name fun (word, span) w hw => ?_
  obtain rfl : w = [⟨.ident word, span⟩] := hw
  simp only
  split
  · rename_i type htype
    have hname : type.name = word := of_decide_eq_true
      (List.find?_some (p := fun t : StaticType => decide (t.name = word)) htype)
    exact consumes_pure (by rw [hname]; exact ⟨rfl, htype⟩)
  · exact consumes_refuse

/-- A comma is consumed, unless the closing parenthesis comes next. -/
theorem consumes_separator_bind {f : Unit → Parser α}
    (hclose : Consumes (·.token = .mark .closeParen) P (f ()))
    (hcomma : ∀ span,
      Consumes (fun _ => True) (fun w a => P (⟨.mark .comma, span⟩ :: w) a) (f ())) :
    Consumes H P (separator >>= f) := by
  rw [separator, bind_assoc]
  refine consumes_peek_bind fun t => ?_
  split
  · rename_i h
    subst h
    rw [pure_bind]
    exact consumes_mono hclose (fun _ h => h.2) fun _ _ => id
  · refine consumes_bind (consumes_discard (consumes_expect nofun)) fun _ w ⟨span, hw⟩ => ?_
    rw [hw]
    exact hcomma span

/-- What the parser answers, and all tokens there are, have the property. -/
def ConsumesAll (P : List SpannedToken → α → Prop) (p : Parser α) : Prop :=
  ∀ ⦃ts a rest⦄, Ended ts → Returns p ts a rest → P ts a

theorem consumesAll_bind (hp : Consumes (fun _ => True) Q p)
    (hf : ∀ b w, Q w b → ConsumesAll (fun w' a => P (w ++ w') a) (f b)) :
    ConsumesAll P (p >>= f) := by
  intro ts a rest hts h
  obtain ⟨b, mid, hb, ha⟩ := returns_bind.1 h
  obtain ⟨hmid, first, rfl, hfirst⟩ := hp hts trivial hb
  exact hf b _ hfirst hmid ha

theorem consumesAll_peek_bind {f : Token → Parser α} (hf : ∀ t, ConsumesAll P (f t)) :
    ConsumesAll P (peek >>= f) := by
  intro ts a rest hts h
  obtain ⟨t, mid, hpeek, ha⟩ := returns_bind.1 h
  obtain ⟨rfl, rfl⟩ := returns_peek.1 hpeek
  exact hf _ hts ha

/-- Only the end of input is left. -/
theorem consumesAll_end {a : α} (h : ∀ span, P [⟨.endOfInput, span⟩] a) :
    ConsumesAll P (do discard (expect .endOfInput); return a) := by
  intro ts b rest hts hreturns
  obtain ⟨_, _, hend, hreturns⟩ := returns_bind.1 hreturns
  obtain ⟨rfl, -⟩ := returns_pure.1 hreturns
  cases hts with
  | last span => exact h span
  | @cons t ts token =>
    have hne : ¬next (t :: ts) = .endOfInput := token
    obtain ⟨_, _, hexpect, _⟩ :=
      (returns_bind (p := expect .endOfInput) (f := fun _ => pure ())).1 hend
    obtain ⟨_, _, hpeek, hexpect⟩ := returns_bind.1 hexpect
    obtain ⟨rfl, rfl⟩ := returns_peek.1 hpeek
    rw [if_neg hne] at hexpect
    cases hexpect

end

end Parser

end EventScript
