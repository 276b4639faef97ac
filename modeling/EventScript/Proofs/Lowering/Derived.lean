import EventScript.Proofs.Lowering.Flow

/-!
What has a derivation is lowered. Apart from a derivation, all that lowering asks for is that code can
name the offsets it jumps to.
-/
namespace EventScript

/-- Jumps go to offsets that code can name. -/
def Code.Fits (code : Code) : Prop := ∀ i ∈ code, ∀ m ∈ i.target?, m ≤ maxPosition

namespace Code

instance : DecidablePred Fits := fun code =>
  inferInstanceAs (Decidable (∀ i ∈ code, ∀ m ∈ i.target?, m ≤ maxPosition))

variable {a b : Code}

theorem fits_append : Fits (a ++ b) ↔ Fits a ∧ Fits b := by
  simp only [Fits, Array.mem_append, or_imp, forall_and]

end Code

namespace Phrase

/-- Lowering the phrase for the offset `start` answers this type and code. -/
def Yields (ctx : Context) (start : Nat) (s : Lowering) (type : StaticType) (code : Code)
    (s' : Lowering) : Phrase → Prop
  | .expr e => e.lower ctx start s = .ok ((type, code), s')
  | .operand expected e => ∃ plain, e.lower ctx start s = .ok ((type, plain), s') ∧
      type ≠ .void ∧ expected.accepts type = true ∧ code = plain ++ expectation expected type
  | .body e => ∃ found plain, e.lower ctx start s = .ok ((found, plain), s') ∧
      code = plain ++ dropValue found
  | .statements last es => ∀ first before, start = first + Array.size before →
      Expr.lowerStatements ctx first last before es s = .ok ((type, before ++ code), s')
  | .arguments params es => es.length = params.length ∧
      ∀ first before, start = first + Array.size before →
        Expr.lowerArguments ctx first before params es s = .ok (before ++ code, s')

end Phrase

/-- A literal that is new comes after all others. -/
theorem Lower.literal_of_find?_eq_none {s : Lowering} {l : Literal} {span : Span}
    (hl : s.pools.literals.find? l = none) (hsize : s.pools.literals.entries.size ≤ maxPosition) :
    Lower.literal l span s = .ok (s.pools.literals.entries.size,
      { s with pools.literals := s.pools.literals.insert l () }) := by
  obtain ⟨⟨literals, hosts⟩, scope⟩ := s
  have hsize : literals.size ≤ maxPosition := hsize
  simp only [literal, Pools.literal, Table.position?_eq_none_iff.2 hl, if_pos hsize]
  rfl

namespace Lowered

variable {ctx : Context} {start : Nat} {phrase : Phrase} {s s' : Lowering} {type : StaticType}
  {code : Code} {marks : List Nat}

/-- A tree with a derivation is lowered to just what the derivation says. -/
theorem yields (h : Lowered ctx start phrase s type code marks s') (hfits : code.Fits) :
    phrase.Yields ctx start s type code s' := by
  induction h with
  | literal value place => exact (Expr.lower_literal_eq_ok value).2 ⟨rfl, _, place, rfl⟩
  | read found => exact Expr.lower_read_eq_ok.2 ⟨_, found, rfl, rfl, rfl⟩
  | write _ place ih =>
    obtain ⟨plain, hvalue, hvalued, hfit, rfl⟩ := ih (Code.fits_append.1 hfits).1
    exact Expr.lower_write_eq_ok.2
      ⟨_, plain, _, _, _, hvalue, hvalued, place, hfit, rfl, rfl, rfl⟩
  | arithmetic _ _ ih₁ ih₂ =>
    obtain ⟨hoperands, _⟩ := Code.fits_append.1 hfits
    obtain ⟨hfirst, hsecond⟩ := Code.fits_append.1 hoperands
    obtain ⟨plain, hleft, _, hl, rfl⟩ := ih₁ hfirst
    obtain ⟨plain', hright, _, hr, rfl⟩ := ih₂ hsecond
    simp only [Phrase.Yields, Expr.lower, Lower.bind_eq_ok, Lower.lift_eq_ok, numberExpectation_eq_ok]
    exact ⟨_, _, hleft, _, _, ⟨⟨hl, rfl⟩, rfl⟩, _, _, hright, _, _, ⟨⟨hr, rfl⟩, rfl⟩,
      by simp only [Array.append_assoc]; rfl⟩
  | branch _ _ ih₁ ih₂ =>
    obtain ⟨htests, hbody⟩ := Code.fits_append.1 hfits
    obtain ⟨htest, hjump⟩ := Code.fits_append.1 htests
    obtain ⟨plain, hcondition, _, hbool, rfl⟩ := ih₁ htest
    obtain ⟨found, plain', hthen, rfl⟩ := ih₂ hbody
    have hend := hjump _ (Array.mem_singleton.2 rfl) _ rfl
    simp only [Phrase.Yields, Expr.lower, Lower.bind_eq_ok, Lower.ite_eq_ok, Lower.lift_eq_ok, checkOffset_eq_ok]
    exact ⟨_, _, hcondition, .inr ⟨by simp [hbool], _, _, hthen, (), _, ⟨hend, rfl⟩, rfl⟩⟩
  | branchElse _ _ _ ih₁ ih₂ ih₃ =>
    obtain ⟨hfits, helse⟩ := Code.fits_append.1 hfits
    obtain ⟨hfits, hjump'⟩ := Code.fits_append.1 hfits
    obtain ⟨htests, hbody⟩ := Code.fits_append.1 hfits
    obtain ⟨htest, hjump⟩ := Code.fits_append.1 htests
    obtain ⟨plain, hcondition, _, hbool, rfl⟩ := ih₁ htest
    obtain ⟨found, plain', hthen, rfl⟩ := ih₂ hbody
    obtain ⟨found', plain'', hother, rfl⟩ := ih₃ helse
    have hend := hjump _ (Array.mem_singleton.2 rfl) _ rfl
    have hend' := hjump' _ (Array.mem_singleton.2 rfl) _ rfl
    simp only [Phrase.Yields, Expr.lower, Lower.bind_eq_ok, Lower.ite_eq_ok, Lower.lift_eq_ok, checkOffset_eq_ok]
    exact ⟨_, _, hcondition, .inr ⟨by simp [hbool], _, _, hthen, (), _, ⟨hend, rfl⟩, _, _, hother,
      (), _, ⟨hend', rfl⟩, rfl⟩⟩
  | @loop _ _ _ _ _ _ _ _ _ _ _ _ _ _ _ s₃ _ slot unit _ ih₁ ih₂ =>
    obtain ⟨hfits, hback⟩ := Code.fits_append.1 hfits
    obtain ⟨hfits, hbody⟩ := Code.fits_append.1 hfits
    obtain ⟨hcount, htest⟩ := Code.fits_append.1 hfits
    obtain ⟨plain, hcounted, _, hnumber, rfl⟩ := ih₁ hcount
    obtain ⟨found, plain', hrepeated, rfl⟩ := ih₂ hbody
    have hhead := hback _ (Array.mem_of_getElem? (i := 4) rfl) _ rfl
    have hend := htest _ (Array.mem_of_getElem? (i := 4) rfl) _ rfl
    simp only [Phrase.Yields, Expr.lower, Lower.bind_eq_ok, Lower.lift_eq_ok, Lower.temporary_eq_ok,
      numberExpectation_eq_ok, checkOffset_eq_ok]
    refine ⟨_, _, hcounted, _, _, ⟨⟨hnumber, rfl⟩, rfl⟩, _, _, ⟨_, slot, rfl⟩, _, _, unit, (), _,
      ⟨?_, rfl⟩, (found, plain'), s₃, ?_, (), _, ⟨?_, rfl⟩, ?_⟩
    · simpa [Nat.add_assoc] using hhead
    · simpa [Nat.add_assoc] using hrepeated
    · simpa [Nat.add_assoc] using hend
    · simp [Lower.pure_apply, Array.append_assoc, Nat.add_assoc]
  | @each _ _ _ _ _ _ _ _ _ _ _ _ _ _ _ _ _ _ _ _ _ _ s₄ _ itemsSlot indexSlot itemSlot zero unit _
      ih₁ ih₂ =>
    obtain ⟨hfits, hback⟩ := Code.fits_append.1 hfits
    obtain ⟨hfits, hbody⟩ := Code.fits_append.1 hfits
    obtain ⟨hlist, htest⟩ := Code.fits_append.1 hfits
    obtain ⟨plain, hlisted, _, haccepts, rfl⟩ := ih₁ hlist
    obtain ⟨found, plain', hrepeated, rfl⟩ := ih₂ hbody
    have hhead := hback _ (Array.mem_of_getElem? (i := 4) rfl) _ rfl
    have hend := htest _ (Array.mem_of_getElem? (i := 7) rfl) _ rfl
    simp only [Phrase.Yields, Expr.lower, Lower.bind_eq_ok, Lower.ite_eq_ok, Lower.temporary_eq_ok,
      Lower.declare_eq_ok, Lower.lift_eq_ok, checkOffset_eq_ok]
    refine ⟨_, _, hlisted, .inr ⟨by simp [haccepts], _, _, ⟨_, itemsSlot, rfl⟩, _, _,
      ⟨_, indexSlot, rfl⟩, _, _, ⟨_, _, itemSlot, rfl, rfl⟩, _, _, zero, _, _, unit, (), _, ⟨?_, rfl⟩,
      (found, plain'), s₄, ?_, (), _, ⟨?_, rfl⟩, ?_⟩⟩
    · simpa [Nat.add_assoc] using hhead
    · simpa [Nat.add_assoc] using hrepeated
    · simpa [Nat.add_assoc] using hend
    · simp [Lower.pure_apply, Array.append_assoc, Nat.add_assoc]
  | block _ ih =>
    have hall := ih hfits _ (#[] : Code) rfl
    rwa [Array.empty_append] at hall
  | @call _ _ _ args _ _ _ _ _ _ _ bound _ made ih =>
    obtain ⟨hlength, hpassed⟩ := ih (Code.fits_append.1 hfits).1
    have hpassed := hpassed _ (#[] : Code) rfl
    rw [Array.empty_append] at hpassed
    simp only [Phrase.Yields, Expr.lower, Lower.bind_eq_ok, Lower.ite_eq_ok, Lower.lift_eq_ok, Lower.get_eq_ok]
    exact ⟨_, _, ⟨rfl, rfl⟩, _, _, ⟨bound, rfl⟩, .inr ⟨fun h => h hlength, _, _, hpassed, _, _, made,
      by simp; rfl⟩⟩
  | operand _ valued fits ih => exact ⟨_, ih (Code.fits_append.1 hfits).1, valued, fits, rfl⟩
  | body _ ih => exact ⟨_, _, ih (Code.fits_append.1 hfits).1, rfl⟩
  | noStatements =>
    intro first before _
    rw [Array.append_empty]
    rfl
  | @statements _ last _ _ _ _ code _ _ _ _ _ _ _ _ ih₁ ih₂ =>
    rintro first before rfl
    obtain ⟨hfits, hothers⟩ := Code.fits_append.1 hfits
    have hfirst := ih₁ (Code.fits_append.1 hfits).2
    have hothers := ih₂ hothers first (before ++ dropValue last ++ code) (by
      simp only [Array.size_append, Nat.add_assoc])
    rw [Expr.lowerStatements]
    rw [Nat.add_assoc, ← Array.size_append] at hfirst
    refine Lower.bind_eq_ok.2 ⟨_, _, hfirst, ?_⟩
    simpa only [Array.append_assoc] using hothers
  | noArguments =>
    refine ⟨rfl, fun first before _ => ?_⟩
    rw [Array.append_empty]
    rfl
  | @arguments _ expected _ _ _ _ type _ _ _ _ _ _ _ _ ih₁ ih₂ =>
    obtain ⟨hfirst, hothers⟩ := Code.fits_append.1 hfits
    obtain ⟨plain, hvalue, hvalued, hfit, rfl⟩ := ih₁ hfirst
    obtain ⟨hlength, hothers⟩ := ih₂ hothers
    refine ⟨congrArg Nat.succ hlength, ?_⟩
    rintro first before rfl
    have hothers := hothers first (before ++ (plain ++ expectation expected type)) (by
      simp only [Array.size_append, Nat.add_assoc])
    rw [Expr.lowerArguments]
    refine Lower.bind_eq_ok.2 ⟨_, _, hvalue, ?_⟩
    simp only [Lower.ite_eq_ok]
    refine .inr ⟨hvalued, .inr ⟨by simp [hfit], ?_⟩⟩
    simpa only [Array.append_assoc] using hothers

end Lowered

namespace Definition

variable {ctx : Context} {d : Definition} {pools : Pools} {r : Routine} {marks : List Nat}
  {s' : Lowering}

theorem declareParams_eq_ok : ∀ {ps : List Param} {s : Lowering}, (ps.map (·.name)).Nodup →
    (∀ p ∈ ps, s.scope.find? p.name = none) → s.scope.slotCount + ps.length ≤ Scope.maxSlots →
      declareParams ps s =
        .ok ((), { s with scope := ps.foldl (fun s p => s.add p.name p.type) s.scope })
  | [], _, _, _, _ => rfl
  | p :: ps, s, hd, hfree, hcount => by
    rw [List.map_cons, List.nodup_cons] at hd
    have hnone := hfree p List.mem_cons_self
    have hlt : s.scope.slotCount < Scope.maxSlots := by
      rw [List.length_cons] at hcount
      omega
    have hdeclare : s.scope.declare? p.name p.type = _ :=
      Scope.declare?_eq_some_iff.2 (.inr ⟨hnone, hlt, rfl, rfl⟩)
    simp only [declareParams, Lower.bind_eq_ok, Lower.find?_eq_ok, Lower.ite_eq_ok,
      Lower.declare_eq_ok]
    refine ⟨_, _, ⟨rfl, rfl⟩, .inr ⟨by simp [hnone], _, _, ⟨_, _, hdeclare, rfl, rfl⟩, ?_⟩⟩
    refine declareParams_eq_ok hd.2 (fun q hq => ?_) ?_
    · have hne : q.name ≠ p.name := fun h => hd.1 (h ▸ List.mem_map_of_mem hq)
      simp only
      rw [Scope.find?_add_of_ne hne]
      exact hfree q (List.mem_cons_of_mem _ hq)
    · simp only [Scope.add, List.length_cons] at hcount ⊢
      omega

theorem Ends.exists_conversion {type : StaticType} {ending : Code} (h : d.Ends type ending)
    (span : Span) : d.schema.returns = .void ∧ ending = dropValue type ++ #[.returnVoid] ∨
      d.schema.returns ≠ .void ∧ ∃ check, d.conversion type span = .ok check ∧
        ending = check ++ #[.returnValue] := by
  cases h with
  | nothing returns => exact .inl ⟨returns, rfl⟩
  | text returns =>
    refine .inr ⟨by simp [returns], #[.toText], ?_, rfl⟩
    simp [conversion, returns]
  | value returns valued fits =>
    have htext : ¬(d.schema.returns = .text ∧ type = .string) := by
      rintro ⟨htext, rfl⟩
      rw [htext] at fits
      revert fits
      decide
    refine .inr ⟨returns, expectation d.schema.returns type, ?_, rfl⟩
    simp only [conversion, valued, htext, fits, if_false, if_true]

/-- A schema with a derivation is lowered to just its routine. -/
theorem Lowers.lower (h : d.Lowers ctx pools r marks s') (hfits : r.code.Fits)
    (hcount : d.schema.params.length ≤ Scope.maxSlots) : d.lower ctx { pools } = .ok (r, s') := by
  obtain ⟨body, distinct, lowered, ends⟩ := h
  have hparams := declareParams_eq_ok (s := { pools }) distinct
    (fun q _ => by simp [Scope.find?, Scope.empty]) (by simpa [Scope.empty] using hcount)
  have hstatements := lowered.yields (Code.fits_append.1 hfits).1 0 (#[] : Code) rfl
  simp only [Array.empty_append] at hstatements
  simp only [Definition.lower, Lower.bind_eq_ok, Lower.get_eq_ok, lowerBody, body, Lower.ite_eq_ok,
    Lower.lift_eq_ok]
  refine ⟨_, _, hparams, _, _, ⟨_, _, hstatements, ?_⟩, _, _, ⟨rfl, rfl⟩, rfl⟩
  rcases ends.exists_conversion _ with ⟨hvoid, rfl⟩ | ⟨hvalue, check, hcheck, rfl⟩
  · exact .inl ⟨hvoid, by simp [Lower.pure_apply]⟩
  · exact .inr ⟨hvalue, _, _, ⟨hcheck, rfl⟩, by simp [Lower.pure_apply]⟩

end Definition

end EventScript
