import EventScript.Proofs.Corpus
import EventScript.Proofs.Positions.Following

/-!
Definitions in another order. Each is lowered to the same routine up to positions, in pools that
hold nothing but what the pools of the first order hold, so that they never get too full.
-/
namespace EventScript

/-- Routines that are the same, with code that stands for the same. -/
structure Routine.Mirrors (ctx ctx' : Context) (p q : Pools) (r r' : Routine) : Prop where
  name : r.name = r'.name
  resource : r.resource? = r'.resource?
  params : r.params = r'.params
  returns : r.returns = r'.returns
  localCount : r.localCount = r'.localCount
  localNames : r.localNames = r'.localNames
  code : Code.Mirrors ctx ctx' p q r.code r'.code

theorem Routine.Mirrors.later {ctx ctx' : Context} {p q p' q' : Pools} {r r' : Routine}
    (h : r.Mirrors ctx ctx' p q r') (hp : p.Extends p') (hq : q.Extends q') :
    r.Mirrors ctx ctx' p' q' r' := { h with code := h.code.later hp hq }

namespace Definition

variable {ctx ctx' : Context} {d : Definition}

theorem unpooled_declareParams : ∀ ps : List Param, Lower.Unpooled (declareParams ps)
  | [] => Lower.unpooled_pure _
  | p :: ps => by
    unfold declareParams
    refine Lower.unpooled_bind Lower.unpooled_find? fun l? => ?_
    have hdeclare : Lower.Unpooled (do
        let _ ← Lower.declare p.name p.type p.span
        declareParams ps) :=
      Lower.unpooled_bind Lower.unpooled_declare fun _ => unpooled_declareParams ps
    simp only
    split
    · exact Lower.unpooled_bind (Lower.unpooled_lift _) fun _ => hdeclare
    · exact hdeclare

/-- What is needed for the result concerns the value on the stack alone. -/
theorem isPlain_of_conversion {found : StaticType} {span : Span} {code : Code}
    (h : d.conversion found span = .ok code) : code.IsPlain := by
  unfold conversion at h
  simp only at h
  split at h
  · exact (refuse_eq_ok.1 h).elim
  split at h
  · cases h
    simp [Code.IsPlain, Instruction.IsPlain]
  split at h
  · cases h
    exact Code.isPlain_expectation _ _
  · exact (refuse_eq_ok.1 h).elim

theorem follows_lowerBody (h : ctx.Rearranges ctx') (hu : d.schema.body.Unbound) {p q : Pools} :
    Lower.Follows ctx.registry p q (Code.Mirrors ctx ctx') (d.lowerBody ctx)
      (d.lowerBody ctx') := by
  unfold lowerBody
  cases hbody : d.schema.body with
  | block span es =>
    rw [hbody] at hu
    refine Expr.follows_bind_typed (Expr.follows_lowerStatements h es 0 .void Code.mirrors_nil hu)
      fun type code code' _ hcode => ?_
    simp only
    split
    · exact Lower.follows_pure ((hcode.append (Code.isPlain_dropValue type).mirrors).push
        (.plain trivial))
    · refine Lower.follows_bind_same (Lower.unpooled_lift _) fun ending ⟨_, _, h⟩ => ?_
      have hplain := isPlain_of_conversion (Lower.lift_eq_ok.1 h).1
      exact Lower.follows_pure ((hcode.append hplain.mirrors).push (.plain trivial))
  | _ => exact Lower.follows_refuse

theorem follows_lower (h : ctx.Rearranges ctx') (hu : d.schema.body.Unbound) {p q : Pools} :
    Lower.Follows ctx.registry p q (Routine.Mirrors ctx ctx') (d.lower ctx) (d.lower ctx') := by
  refine Lower.follows_bind_same (unpooled_declareParams _) fun _ _ => ?_
  refine Lower.follows_bind (follows_lowerBody h hu) fun p₁ q₁ code code' _ hcode => ?_
  refine Lower.follows_get_bind fun scope => ?_
  exact Lower.follows_pure ⟨rfl, rfl, rfl, rfl, rfl, rfl, hcode⟩

theorem fits_of_lowerAll (named : ctx.Named) {ds : List Definition} {pools pools' : Pools}
    {routines routines' : Array Routine} (hu : ∀ d ∈ ds, d.schema.body.Unbound)
    (hs : pools.Sound ctx.registry) (hfits : pools.Fits)
    (h : lowerAll ctx pools routines ds = .ok (routines', pools')) : pools'.Fits := by
  induction ds generalizing pools routines with
  | nil =>
    cases h
    exact hfits
  | cons d ds ih =>
    obtain ⟨hd, hds⟩ := List.forall_mem_cons.1 hu
    obtain ⟨⟨r, pools₁⟩, hfirst, h⟩ := bind_eq_ok.1 h
    obtain ⟨_, s', hlower, _, rfl⟩ := lowers_of_lowerWith hd hfirst
    obtain ⟨_, _, hadvance, _⟩ := follows_lower (.refl named) hd hs hs hlower
    exact ih hds (hadvance.leftSound hs) (hadvance.leftFits hfits) h

theorem mem_signatures_iff {ds : List Definition} {schemas : Table String Signature}
    (h : signatures Table.empty ds = .ok schemas) {name : String} {sig : Signature} :
    schemas.find? name = some sig ↔ ∃ d ∈ ds, d.name = name ∧ d.signature = sig := by
  simp only [Table.find?_eq_some_iff, entries_of_signatures h, Table.entries_empty,
    Array.empty_append, List.getElem?_toArray, List.getElem?_map, Option.map_eq_some_iff,
    Prod.mk.injEq, List.mem_iff_getElem?]
  constructor
  · rintro ⟨i, d, hi, hd⟩
    exact ⟨d, ⟨i, hi⟩, hd⟩
  · rintro ⟨d, ⟨i, hi⟩, hd⟩
    exact ⟨i, d, hi, hd⟩

theorem rearranges_of_perm {registry : Registry} {schemas schemas' : Table String Signature}
    {ds ds' : List Definition} (named : Context.Named ⟨registry, schemas⟩)
    (hs : signatures Table.empty ds = .ok schemas) (hs' : signatures Table.empty ds' = .ok schemas')
    (hperm : ds.Perm ds') : Context.Rearranges ⟨registry, schemas⟩ ⟨registry, schemas'⟩ where
  named := named
  registry := rfl
  schema name := by
    refine Option.ext fun sig => ?_
    simp only [mem_signatures_iff hs, mem_signatures_iff hs', hperm.mem_iff]

/-- Definitions of a program are lowered again, in any order. -/
theorem follows_lowerAll {p : Program} {ds : List Definition} {pools : Pools}
    (hp : p.Lowers ctx ds pools) (hfits : pools.Fits) (h : ctx.Rearranges ctx')
    (hu : ∀ d ∈ ds, d.schema.body.Unbound) {ds' : List Definition} {q : Pools}
    (hmem : ∀ d ∈ ds', d ∈ ds) (hs : q.Sound ctx.registry) (hinside : q.Inside pools)
    (routines : Array Routine) : ∃ new q', lowerAll ctx' q routines ds' =
      .ok (routines ++ new.toArray, q') ∧ q.Extends q' ∧
        List.Forall₂ (fun d r' => ∃ (i : Nat) (r : Routine), ds[i]? = some d ∧
          p.routines[i]? = some r ∧
          r.Mirrors ctx ctx' pools q' r') ds' new := by
  induction ds' generalizing q routines with
  | nil => exact ⟨[], q, by simp [lowerAll], .refl _, .nil⟩
  | cons d ds' ih =>
    obtain ⟨hd, hmem⟩ := List.forall_mem_cons.1 hmem
    obtain ⟨i, hi⟩ := List.getElem?_of_mem hd
    obtain ⟨before, r, _, s', hr, hlower, _, hbefore, hafter⟩ := hp.routines hi
    obtain ⟨r', q₁, hadvance, hmirrors, hok⟩ := follows_lower h (hu d hd) hbefore hs hlower
    have hinside₁ := hadvance.within.inside hinside hafter.inside
    have hlower' : d.lowerWith ctx' q = .ok (r', q₁) :=
      mapError_eq_ok.2 (map_eq_ok.2 ⟨_, hok (hfits.of_inside hinside₁), rfl⟩)
    obtain ⟨new, q', hall, hextends, hnew⟩ :=
      ih hmem (hadvance.rightSound hs) hinside₁ (routines.push r')
    refine ⟨r' :: new, q', bind_eq_ok.2 ⟨_, hlower', by simpa using hall⟩,
      hadvance.right.trans hextends, .cons ⟨i, r, hi, hr, hmirrors.later hafter hextends⟩ hnew⟩

end Definition

end EventScript
