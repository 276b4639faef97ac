import EventScript.Proofs.BindingHistory
import EventScript.Proofs.Grammar.Sound

/-!
The tokens that trees lie over. A tree is read from a run of tokens, begins and ends with them, and
its parts lie over runs of these, one behind the other. Spans are merged so that this stays true
when a tree becomes a part of another.
-/
namespace EventScript

/-- From the start of the first of these tokens to the end of the last. -/
def Span.Over (s : Span) (run : List SpannedToken) : Prop :=
  ∃ first last, run.head? = some first ∧ run.getLast? = some last ∧
    s = ⟨first.span.start, last.span.stop⟩

/-- Each of the tokens ends before the next one begins. -/
structure InOrder (ts : List SpannedToken) : Prop where
  nonempty : ∀ t ∈ ts, t.span.start < t.span.stop
  apart : ts.Pairwise fun a b => a.span.stop ≤ b.span.start

section

variable {s s' : Span} {ts us run : List SpannedToken} {t u : SpannedToken}

theorem InOrder.sublist (h : InOrder us) (hts : ts.Sublist us) : InOrder ts where
  nonempty t ht := h.nonempty t (hts.subset ht)
  apart := h.apart.sublist hts

theorem InOrder.tail (h : InOrder (t :: ts)) : InOrder ts := h.sublist (List.sublist_cons_self ..)

theorem InOrder.left (h : InOrder (ts ++ us)) : InOrder ts :=
  h.sublist (List.sublist_append_left ..)

theorem InOrder.right (h : InOrder (ts ++ us)) : InOrder us :=
  h.sublist (List.sublist_append_right ..)

theorem InOrder.le (h : InOrder (ts ++ us)) (ht : t ∈ ts) (hu : u ∈ us) :
    t.span.stop ≤ u.span.start := (List.pairwise_append.1 h.apart).2.2 t ht u hu

namespace Span

theorem over_singleton (t : SpannedToken) : t.span.Over [t] := ⟨t, t, rfl, rfl, rfl⟩

/-- What lies over two runs is merged to what lies over both and all between them. -/
theorem Over.merge (gap : List SpannedToken) (hs : s.Over ts) (hs' : s'.Over us)
    (hordered : InOrder (ts ++ (gap ++ us))) : (s.merge s').Over (ts ++ (gap ++ us)) := by
  obtain ⟨first, last, hfirst, hlast, rfl⟩ := hs
  obtain ⟨first', last', hfirst', hlast', rfl⟩ := hs'
  refine ⟨first, last', ?_, ?_, ?_⟩
  · rw [List.head?_append, hfirst, Option.some_or]
  · rw [List.getLast?_append, List.getLast?_append, hlast', Option.some_or, Option.some_or]
  · have hmem {t : SpannedToken} (ht : t ∈ us) : t ∈ gap ++ us := List.mem_append_right _ ht
    have hlast'_mem := hmem (List.mem_of_getLast? hlast')
    have hstart := hordered.le (List.mem_of_head? hfirst) (hmem (List.mem_of_head? hfirst'))
    have hstop := hordered.le (List.mem_of_getLast? hlast) hlast'_mem
    have hfirst_lt := hordered.left.nonempty first (List.mem_of_head? hfirst)
    have hlast_lt := hordered.right.nonempty last' hlast'_mem
    simp only [Span.merge, Span.mk.injEq]
    omega

/-- All tokens of a run lie within what lies over it. -/
theorem Over.holds (hs : s.Over run) (hordered : InOrder run) (ht : t ∈ run) :
    s.start ≤ t.span.start ∧ t.span.stop ≤ s.stop := by
  obtain ⟨first, last, hfirst, hlast, rfl⟩ := hs
  constructor
  · obtain ⟨ts, rfl⟩ := List.head?_eq_some_iff.1 hfirst
    rcases List.mem_cons.1 ht with rfl | hts
    · exact Nat.le_refl _
    · have hordered : InOrder ([first] ++ ts) := hordered
      have hle := hordered.le List.mem_cons_self hts
      exact Nat.le_trans (Nat.le_of_lt (hordered.nonempty first List.mem_cons_self)) hle
  · obtain ⟨ts, rfl⟩ := List.getLast?_eq_some_iff.1 hlast
    rcases List.mem_append.1 ht with hts | hlast
    · have hle := hordered.le hts List.mem_cons_self
      exact Nat.le_trans hle (Nat.le_of_lt (hordered.nonempty last (by simp)))
    · cases List.mem_singleton.1 hlast
      exact Nat.le_refl _

end Span

end

/-- One behind the other, these lie over runs of the tokens. -/
inductive Spread {α : Type} (R : List SpannedToken → α → Prop) :
    List SpannedToken → List α → Prop where
  | none {ts} : Spread R ts []
  | cons {gap run rest a as} (first : R run a) (others : Spread R rest as) :
      Spread R (gap ++ (run ++ rest)) (a :: as)

namespace Spread

variable {α : Type} {R : List SpannedToken → α → Prop} {a : α} {as bs : List α}
  {ts us run : List SpannedToken}

theorem behind (h : Spread R ts as) (gap : List SpannedToken) : Spread R (gap ++ ts) as := by
  cases h with
  | none => exact .none
  | cons first others =>
    rw [← List.append_assoc]
    exact .cons first others

theorem append (h : Spread R ts as) (h' : Spread R us bs) : Spread R (ts ++ us) (as ++ bs) := by
  induction h with
  | none => exact h'.behind _
  | cons first _ ih =>
    rw [List.append_assoc, List.append_assoc]
    exact .cons first ih

theorem before (h : Spread R ts as) (gap : List SpannedToken) : Spread R (ts ++ gap) as := by
  have hgap : Spread R gap [] := .none
  simpa using h.append hgap

theorem single (h : R run a) : Spread R run [a] := by
  have hrun : Spread R ([] ++ (run ++ [])) [a] := .cons h .none
  simpa using hrun

end Spread

namespace Expr

/-- The tree begins and ends with the tokens, and its parts lie over runs of them. -/
inductive LiesOver : List SpannedToken → Expr → Prop where
  | intro {run e} (span : e.span.Over run) (parts : Spread LiesOver run e.children) : LiesOver run e

section

variable {e left : Expr} {es : List Expr} {s s' : Span} {ts us run : List SpannedToken}
  {t : SpannedToken}

theorem LiesOver.span (h : e.LiesOver run) : e.span.Over run := by
  obtain ⟨hspan, -⟩ := h
  exact hspan

theorem LiesOver.parts (h : e.LiesOver run) : Spread LiesOver run e.children := by
  obtain ⟨-, hparts⟩ := h
  exact hparts

theorem LiesOver.single (h : e.LiesOver run) : Spread LiesOver run [e] := Spread.single h

theorem liesOver_token (hspan : e.span = t.span) (hleaf : e.children = []) : e.LiesOver [t] :=
  .intro (hspan ▸ Span.over_singleton t) (hleaf ▸ .none)

theorem liesOver_merge (gap : List SpannedToken) (hspan : e.span = s.merge s') (hs : s.Over ts)
    (hs' : s'.Over us) (hordered : InOrder (ts ++ (gap ++ us)))
    (hparts : Spread LiesOver (ts ++ (gap ++ us)) e.children) : e.LiesOver (ts ++ (gap ++ us)) :=
  .intro (hspan ▸ hs.merge gap hs' hordered) hparts

/-- A statement begins with a keyword and ends with a block, and has a value before that. -/
theorem liesOver_statement {value body : Expr} (gap : List SpannedToken)
    (hspan : e.span = t.span.merge body.span) (hchildren : e.children = [value, body]) (hvalue : InOrder ts → value.LiesOver ts)
    (hbody : InOrder us → body.LiesOver us) (hordered : InOrder ([t] ++ (gap ++ ts ++ us))) :
    e.LiesOver ([t] ++ (gap ++ ts ++ us)) := by
  have hvalue := hvalue hordered.right.left.right
  have hbody := hbody hordered.right.right
  refine liesOver_merge (gap ++ ts) hspan (Span.over_singleton t) hbody.span hordered ?_
  rw [hchildren]
  exact ((hvalue.single.behind gap).append hbody.single).behind [t]

/-- With more tokens behind it, a tree becomes the first part of another. -/
def GoesOn (left : Expr) (w : List SpannedToken) (e : Expr) : Prop :=
  ∀ ts, left.LiesOver ts → InOrder (ts ++ w) → e.LiesOver (ts ++ w)

theorem goesOn_self : e.GoesOn [] e := fun ts h _ => by rwa [List.append_nil]

theorem GoesOn.trans {mid : Expr} (h : left.GoesOn ts mid) (h' : mid.GoesOn us e) :
    left.GoesOn (ts ++ us) e := by
  intro before hleft hordered
  rw [← List.append_assoc] at hordered ⊢
  exact h' _ (h _ hleft hordered.left) hordered

/-- A tree and what comes behind it are merged to one that has both for its parts. -/
theorem goesOn_merge (gap : List SpannedToken) (hspan : e.span = left.span.merge s)
    (hchildren : e.children = left :: es)
    (hright : InOrder us → s.Over us ∧ Spread LiesOver us es) : left.GoesOn (gap ++ us) e := by
  intro before hleft hordered
  obtain ⟨hs, hparts⟩ := hright hordered.right.right
  refine liesOver_merge gap hspan hleft.span hs hordered ?_
  rw [hchildren]
  exact hleft.single.append (hparts.behind gap)

end

end Expr

namespace Parser

variable {H : SpannedToken → Prop}

theorem consumes_primary : Consumes H (fun w e => e.LiesOver w) primary := by
  refine consumes_here_bind fun span => consumes_peek_bind fun t => ?_
  have leaf {e : Expr} (ht : t ≠ .endOfInput) (hspan : e.span = span) (hleaf : e.children = []) :
      Consumes (fun u => (H u ∧ u.span = span) ∧ u.token = t) (fun w e => e.LiesOver w)
        (do advance; return e) := by
    refine consumes_advance_bind (fun u hu => hu.2 ▸ ht) fun u hu => consumes_pure ?_
    exact Expr.liesOver_token (hspan.trans hu.1.2.symm) hleaf
  split
  · exact leaf nofun rfl rfl
  · exact leaf nofun rfl rfl
  · exact leaf nofun rfl rfl
  · refine leaf nofun ?_ ?_ <;> split_ifs <;> rfl
  · exact consumes_unexpected

theorem ne_endOfInput_of_looseOperator? {t : Token} {op : Arithmetic}
    (h : looseOperator? t = some op) : t ≠ .endOfInput := by
  rintro rfl
  cases h

theorem ne_endOfInput_of_tightOperator? {t : Token} {op : Arithmetic}
    (h : tightOperator? t = some op) : t ≠ .endOfInput := by
  rintro rfl
  cases h

/-- The right operand and the operator come behind the left one. -/
theorem goesOn_combine {op : Arithmetic} {left right : Expr} {u : SpannedToken}
    {w : List SpannedToken} (hright : InOrder w → right.LiesOver w) :
    left.GoesOn (u :: w) (combine op left right) :=
  Expr.goesOn_merge [u] rfl rfl fun hw => ⟨(hright hw).span, (hright hw).single⟩

-- Readers that are handed a tree answer one that it has become a part of, or that is the same; all
-- others answer a tree that lies over just what they take. The text puts its tokens in order.

mutual

theorem consumes_value : ∀ fuel {H : SpannedToken → Prop},
    Consumes H (fun w e => InOrder w → e.LiesOver w) (value fuel)
  | 0, _ => consumes_outOfFuel
  | fuel + 1, H => by
    unfold value
    refine consumes_bind (consumes_arrow fuel) fun target w htarget => ?_
    refine consumes_peek_bind fun t => ?_
    split
    · refine consumes_advance_bind (fun u hu => hu.2 ▸ nofun) fun u _ => ?_
      refine consumes_bind (consumes_value fuel) fun stored w' hstored => ?_
      refine consumes_pure fun hordered => ?_
      rw [List.append_nil] at hordered ⊢
      have hstored := hstored hordered.right.tail
      exact Expr.liesOver_merge [u] rfl (htarget hordered.left).span hstored.span hordered
        ((hstored.single.behind [u]).behind w)
    · exact consumes_pure (by rwa [List.append_nil])

theorem consumes_arrow : ∀ fuel {H : SpannedToken → Prop},
    Consumes H (fun w e => InOrder w → e.LiesOver w) (arrow fuel)
  | 0, _ => consumes_outOfFuel
  | fuel + 1, H => by
    unfold arrow
    refine consumes_bind (consumes_term fuel) fun receiver w hreceiver => ?_
    exact consumes_mono (consumes_arrows fuel receiver) (fun _ => id) fun w' e he hordered =>
      he w (hreceiver hordered.left) hordered

theorem consumes_arrows : ∀ fuel (receiver : Expr) {H : SpannedToken → Prop},
    Consumes H (fun w e => receiver.GoesOn w e) (arrows fuel receiver)
  | 0, _, _ => consumes_outOfFuel
  | fuel + 1, receiver, H => by
    unfold arrows
    refine consumes_peek_bind fun t => ?_
    split
    · rename_i h
      subst h
      refine consumes_advance_bind (fun u hu => hu.2 ▸ nofun) fun u _ => ?_
      refine consumes_bind consumes_name fun (name, nameSpan) w hw => ?_
      obtain rfl : w = [⟨.ident name, nameSpan⟩] := hw
      refine consumes_bind (consumes_tuple fuel) fun (args, span) w' hargs => ?_
      refine consumes_mono (consumes_arrows fuel _) (fun _ => id) fun w'' e he => ?_
      have hcall : receiver.GoesOn ([u, ⟨.ident name, nameSpan⟩] ++ w')
          (.call (receiver.span.merge span) name (receiver :: args) none) :=
        Expr.goesOn_merge _ rfl rfl hargs
      simpa using hcall.trans he
    · exact consumes_pure Expr.goesOn_self

theorem consumes_term : ∀ fuel {H : SpannedToken → Prop},
    Consumes H (fun w e => InOrder w → e.LiesOver w) (term fuel)
  | 0, _ => consumes_outOfFuel
  | fuel + 1, H => by
    unfold term
    refine consumes_bind (consumes_factor fuel) fun left w hleft => ?_
    exact consumes_mono (consumes_terms fuel left) (fun _ => id) fun w' e he hordered =>
      he w (hleft hordered.left) hordered

theorem consumes_terms : ∀ fuel (left : Expr) {H : SpannedToken → Prop},
    Consumes H (fun w e => left.GoesOn w e) (terms fuel left)
  | 0, _, _ => consumes_outOfFuel
  | fuel + 1, left, H => by
    unfold terms
    refine consumes_peek_bind fun t => ?_
    split
    · rename_i op hop
      refine consumes_advance_bind (fun u hu => hu.2 ▸ ne_endOfInput_of_looseOperator? hop) ?_
      intro u _
      refine consumes_bind (consumes_factor fuel) fun right w hright => ?_
      exact consumes_mono (consumes_terms fuel _) (fun _ => id) fun w' e he =>
        (goesOn_combine hright).trans he
    · exact consumes_pure Expr.goesOn_self

theorem consumes_factor : ∀ fuel {H : SpannedToken → Prop},
    Consumes H (fun w e => InOrder w → e.LiesOver w) (factor fuel)
  | 0, _ => consumes_outOfFuel
  | fuel + 1, H => by
    unfold factor
    refine consumes_bind (consumes_invocation fuel) fun left w hleft => ?_
    exact consumes_mono (consumes_factors fuel left) (fun _ => id) fun w' e he hordered =>
      he w (hleft hordered.left) hordered

theorem consumes_factors : ∀ fuel (left : Expr) {H : SpannedToken → Prop},
    Consumes H (fun w e => left.GoesOn w e) (factors fuel left)
  | 0, _, _ => consumes_outOfFuel
  | fuel + 1, left, H => by
    unfold factors
    refine consumes_peek_bind fun t => ?_
    split
    · rename_i op hop
      refine consumes_advance_bind (fun u hu => hu.2 ▸ ne_endOfInput_of_tightOperator? hop) ?_
      intro u _
      refine consumes_bind (consumes_invocation fuel) fun right w hright => ?_
      exact consumes_mono (consumes_factors fuel _) (fun _ => id) fun w' e he =>
        (goesOn_combine hright).trans he
    · exact consumes_pure Expr.goesOn_self

theorem consumes_invocation : ∀ fuel {H : SpannedToken → Prop},
    Consumes H (fun w e => InOrder w → e.LiesOver w) (invocation fuel)
  | 0, _ => consumes_outOfFuel
  | fuel + 1, H => by
    unfold invocation
    refine consumes_bind consumes_primary fun base w hbase => ?_
    refine consumes_peek_bind fun t => ?_
    split
    · refine consumes_bind (consumes_mono (consumes_tuple fuel) (fun _ _ => trivial) fun _ _ => id)
        fun (args, span) w' hargs => consumes_pure fun hordered => ?_
      rw [List.append_nil] at hordered ⊢
      obtain ⟨hspan, hparts⟩ := hargs hordered.right
      exact Expr.liesOver_merge [] rfl hbase.span hspan hordered (hparts.behind w)
    · exact consumes_pure fun _ => by rwa [List.append_nil]

theorem consumes_tuple : ∀ fuel {H : SpannedToken → Prop}, Consumes H
    (fun w r => InOrder w → r.2.Over w ∧ Spread Expr.LiesOver w r.1) (tuple fuel)
  | 0, _ => consumes_outOfFuel
  | fuel + 1, H => by
    unfold tuple
    refine consumes_bind (consumes_expect nofun) fun start w hw => ?_
    subst hw
    refine consumes_bind (consumes_arguments fuel []) fun args w' hargs => ?_
    refine consumes_bind (consumes_expect nofun) fun stop w hw => ?_
    subst hw
    refine consumes_pure fun hordered => ?_
    rw [List.append_nil] at hordered ⊢
    obtain ⟨new, rfl, hnew⟩ := hargs
    exact ⟨(Span.over_singleton _).merge w' (Span.over_singleton _) hordered,
      ((hnew hordered.right.left).before _).behind _⟩

theorem consumes_arguments : ∀ fuel (read : List Expr) {H : SpannedToken → Prop}, Consumes H
    (fun w es => ∃ new, es = read.reverse ++ new ∧ (InOrder w → Spread Expr.LiesOver w new))
      (arguments fuel read)
  | 0, _, _ => consumes_outOfFuel
  | fuel + 1, read, H => by
    unfold arguments
    refine consumes_peek_bind fun t => ?_
    split
    · exact consumes_pure ⟨[], by simp, fun _ => .none⟩
    · refine consumes_bind (consumes_value fuel) fun argument w hargument => ?_
      -- Whether there is a comma, the other arguments lie behind this one.
      have more (comma : List SpannedToken) : Consumes (fun _ => True) (fun w' es =>
          ∃ new, es = read.reverse ++ new ∧
            (InOrder (w ++ (comma ++ w')) → Spread Expr.LiesOver (w ++ (comma ++ w')) new))
          (arguments fuel (argument :: read)) := by
        refine consumes_mono (consumes_arguments fuel _) (fun _ => id) ?_
        rintro w' es ⟨new, rfl, hnew⟩
        refine ⟨argument :: new, by simp, fun hordered => ?_⟩
        exact (hargument hordered.left).single.append
          ((hnew hordered.right.right).behind comma)
      exact consumes_separator_bind (consumes_mono (more []) (fun _ _ => trivial)
        fun _ _ => id) fun span => more [⟨.mark .comma, span⟩]

end

/-! ### Statements -/

mutual

theorem consumes_block : ∀ fuel {H : SpannedToken → Prop}, Consumes H
    (fun w e => ∃ opening inner closing, w =
      ⟨.mark .openBrace, opening⟩ :: (inner ++ [⟨.mark .closeBrace, closing⟩]) ∧
        (InOrder w → e.LiesOver w)) (block fuel)
  | 0, _ => consumes_outOfFuel
  | fuel + 1, H => by
    unfold block
    refine consumes_bind (consumes_expect nofun) fun start w hw => ?_
    subst hw
    refine consumes_bind (consumes_statements fuel []) fun body w' hbody => ?_
    refine consumes_bind (consumes_expect nofun) fun stop w hw => ?_
    subst hw
    obtain ⟨new, rfl, hnew⟩ := hbody
    refine consumes_pure ⟨start, w', stop, rfl, fun hordered => ?_⟩
    rw [List.append_nil] at hordered ⊢
    exact Expr.liesOver_merge w' rfl (Span.over_singleton _) (Span.over_singleton _) hordered
      (((hnew hordered.right.left).before _).behind _)

theorem consumes_statements : ∀ fuel (read : List Expr) {H : SpannedToken → Prop}, Consumes H
    (fun w es => ∃ new, es = read.reverse ++ new ∧ (InOrder w → Spread Expr.LiesOver w new))
      (statements fuel read)
  | 0, _, _ => consumes_outOfFuel
  | fuel + 1, read, H => by
    unfold statements
    refine consumes_peek_bind fun t => ?_
    split
    · exact consumes_pure ⟨[], by simp, fun _ => .none⟩
    · refine consumes_bind (consumes_statement fuel) fun e w he => ?_
      refine consumes_mono (consumes_statements fuel _) (fun _ => id) ?_
      rintro w' es ⟨new, rfl, hnew⟩
      exact ⟨e :: new, by simp, fun hordered =>
        (he hordered.left).single.append (hnew hordered.right)⟩

theorem consumes_statement : ∀ fuel {H : SpannedToken → Prop},
    Consumes H (fun w e => InOrder w → e.LiesOver w) (statement fuel)
  | 0, _ => consumes_outOfFuel
  | fuel + 1, H => by
    unfold statement
    refine consumes_peek_bind fun t => ?_
    split
    · refine consumes_here_bind fun start => consumes_advance_bind (fun u hu => hu.1.2 ▸ nofun) ?_
      rintro u ⟨-, rfl⟩
      refine consumes_bind (consumes_value fuel) fun count w hcount => ?_
      refine consumes_bind (consumes_block fuel) fun body w' ⟨_, _, _, _, hbody⟩ => ?_
      refine consumes_pure ?_
      rw [List.append_nil]
      exact Expr.liesOver_statement [] rfl rfl hcount hbody
    · refine consumes_here_bind fun start => consumes_advance_bind (fun u hu => hu.1.2 ▸ nofun) ?_
      rintro u ⟨-, rfl⟩
      refine consumes_bind (consumes_value fuel) fun condition w hcondition => ?_
      refine consumes_bind (consumes_block fuel) fun thenBody w' ⟨_, _, _, _, hthen⟩ => ?_
      have hbranch : InOrder ([u] ++ (w ++ w')) → (Expr.branch (u.span.merge thenBody.span)
          condition thenBody none).LiesOver ([u] ++ (w ++ w')) :=
        Expr.liesOver_statement [] rfl rfl hcondition hthen
      refine consumes_peek_bind fun t => ?_
      split
      · rename_i h
        subst h
        refine consumes_advance_bind (fun v hv => hv.2 ▸ nofun) fun v _ => ?_
        refine consumes_bind (consumes_block fuel) fun elseBody w'' ⟨_, _, _, _, helse⟩ => ?_
        have helseBranch : InOrder ([u] ++ (w ++ w') ++ ([v] ++ w'')) →
            (Expr.branch ((u.span.merge thenBody.span).merge elseBody.span) condition thenBody
              (some elseBody)).LiesOver ([u] ++ (w ++ w') ++ ([v] ++ w'')) := by
          intro hordered
          have hbranch := hbranch hordered.left
          have helse := helse hordered.right.right
          exact Expr.liesOver_merge [v] rfl hbranch.span helse.span hordered
            (hbranch.parts.append (helse.single.behind [v]))
        exact consumes_pure (by simpa using helseBranch)
      · refine consumes_pure ?_
        rw [List.append_nil]
        exact hbranch
    · refine consumes_here_bind fun start => consumes_advance_bind (fun u hu => hu.1.2 ▸ nofun) ?_
      rintro u ⟨-, rfl⟩
      refine consumes_bind consumes_name fun (name, nameSpan) w hw => ?_
      subst hw
      refine consumes_bind (consumes_discard (consumes_expect nofun)) fun _ w ⟨among, hw⟩ => ?_
      subst hw
      refine consumes_bind (consumes_value fuel) fun sequence w hsequence => ?_
      refine consumes_bind (consumes_block fuel) fun body w' ⟨_, _, _, _, hbody⟩ => ?_
      refine consumes_pure ?_
      rw [List.append_nil]
      have heach : InOrder ([u] ++ ([⟨.ident name, nameSpan⟩, ⟨.keyword .among, among⟩] ++ w ++ w')) →
          Expr.LiesOver _ (.each (u.span.merge body.span) name sequence body) :=
        Expr.liesOver_statement _ rfl rfl hsequence hbody
      exact heach
    · exact consumes_mono (consumes_value fuel) (fun _ _ => trivial) fun _ _ => id

end

end Parser

end EventScript
