import EventScript.Proofs.Binding.Filling
import EventScript.Proofs.Registry

/-!
What a call is bound to. The name of the call and the type of its first argument select a target,
operations before schemas and the plain name before the other; the arguments are then accepted for
that target or not at all.
-/
namespace EventScript

namespace Context

/-- The name under which a call is tried besides its own, if it has a first argument. -/
def otherName (name : String) (first? : Option StaticType) : String :=
  first?.elim name (alternate · name)

/-- The names under which a call is tried. -/
def triedNames (name : String) (first? : Option StaticType) : List String :=
  name :: (first?.map (alternate · name)).toList

/-- All that calls of these names could mean, the best first. -/
def candidates (ctx : Context) (names : List String) : List Callee :=
  (names.filterMap ctx.registry.find?).map .ofOperation ++
    (names.filterMap fun n => ctx.schemas.find? (mangle n)).map .ofSignature

variable {ctx : Context} {name : String} {first? : Option StaticType} {names : List String}
  {op : Operation}

theorem head?_filterMap_pair {α β : Type} (f : α → Option β) (a b : α) :
    ([a, b].filterMap f).head? = (f a).or (f b) := by
  cases ha : f a <;> simp [ha]

theorem callee?_otherName : ctx.callee? name (otherName name first?) =
    (ctx.candidates (triedNames name first?)).head? := by
  rw [callee?, candidates, List.head?_append, List.head?_map, List.head?_map]
  simp only [Option.orElse_eq_orElse, Option.orElse_eq_or]
  cases first? with
  | none => simp [triedNames, otherName]
  | some type =>
    change _ = (([name, alternate type name].filterMap _).head?.map _).or
      (([name, alternate type name].filterMap _).head?.map _)
    rw [head?_filterMap_pair, head?_filterMap_pair]
    rfl

/-- A schema comes first only if there is no operation. -/
theorem exists_operation_of_mem {n : String} (hn : n ∈ names)
    (hop : ctx.registry.find? n = some op) :
    ∃ op', (ctx.candidates names).head? = some (.ofOperation op') := by
  have hmem : op ∈ names.filterMap ctx.registry.find? := List.mem_filterMap.2 ⟨n, hn, hop⟩
  obtain ⟨op', ops, hops⟩ := List.exists_cons_of_ne_nil (List.ne_nil_of_mem hmem)
  exact ⟨op', by rw [candidates, hops]; rfl⟩

end Context

namespace Expr

variable {ctx : Context} {scope : Scope} {span : Span} {name : String} {args : List Expr}
  {first? : Option StaticType}

theorem alternateName_eq (h : args.head?.map (·.typeOf ctx scope) = first?.map .ok) :
    (alternateName ctx scope name args).1 = .ok (Context.otherName name first?) := by
  cases args with
  | nil =>
    cases first? with
    | none => rfl
    | some type => cases h
  | cons a as =>
    cases first? with
    | none => cases h
    | some type => exact alternateName_cons.2 ⟨type, Option.some.inj h, rfl⟩

section

variable {other mangled mangledOther : String} {place : Span} {source? : Option String}

theorem exists_of_inferLast_error {es : List Expr} {e : CompileError}
    (h : (inferLast ctx scope es).1 = .error e) : ∃ a ∈ es, a.typeOf ctx scope = .error e := by
  induction es with
  | nil => cases h
  | cons a es ih =>
    cases es with
    | nil => exact ⟨a, List.mem_cons_self, h⟩
    | cons b es =>
      rw [inferLast_cons a (List.cons_ne_nil b es)] at h
      obtain ⟨c, hc, he⟩ := ih h
      exact ⟨c, List.mem_cons_of_mem a hc, he⟩

mutual

/-- Nothing has the names that are named in the complaint about a call. -/
theorem callee?_of_typeOf : ∀ e : Expr, e.typeOf ctx scope =
    .error ⟨.unresolvedCall name other mangled mangledOther, place, source?⟩ →
      ctx.callee? name other = none
  | .number _ _, h | .string _ _, h | .text _ _, h | .bool _ _, h | .write _ _ _, h
  | .arithmetic _ _ _ _, h | .branch _ _ _ _, h | .loop _ _ _, h | .each _ _ _ _, h
  | .bound _ _ _, h | .call _ _ _ (some _), h => nomatch h
  | .read span name, h => by
    rw [typeOf, infer_read] at h
    cases hl : scope.find? name with
    | none =>
      rw [hl] at h
      cases h
    | some l =>
      rw [hl] at h
      cases h
  | .block _ statements, h => by
    obtain ⟨a, ha, he⟩ := exists_of_inferLast_error h
    exact callee?_of_typeOf_mem statements a ha he
  | .call _ _ args none, h => by
    rcases bindCall_eq_error (map_eq_error.1 h) with ⟨a, ha, he⟩ | hkind | hkind | ⟨_, _, hcallee⟩
    · exact callee?_of_typeOf_mem args a ha he
    · cases hkind
    · cases hkind
    · obtain ⟨hnone, heq⟩ := Context.callee_eq_error.1 hcallee
      cases heq
      exact hnone

theorem callee?_of_typeOf_mem : ∀ es : List Expr, ∀ e ∈ es, e.typeOf ctx scope =
    .error ⟨.unresolvedCall name other mangled mangledOther, place, source?⟩ →
      ctx.callee? name other = none
  | [] => nofun
  | e :: es => List.forall_mem_cons.2 ⟨callee?_of_typeOf e, callee?_of_typeOf_mem es⟩

end

end

/-- How a call is bound whose first argument is of this type, or which has no argument. -/
structure Dispatches (ctx : Context) (scope : Scope) (span : Span) (name : String)
    (args : List Expr) (first? : Option StaticType) : Prop where
  /-- The best candidate is the target, just if the arguments fill its fields one by one. -/
  binds : ∀ target, targetOf ctx scope span name args none = .ok target ↔
    ∃ c, (ctx.candidates (Context.triedNames name first?)).head? = some c ∧
      c.target = target ∧ List.Forall₂ (Fills ctx scope) c.fields args
  /-- The call itself is complained of as unresolved just if there is no candidate. -/
  unresolved : targetOf ctx scope span name args none =
      refuse (.unresolvedCall name (Context.otherName name first?) (mangle name)
        (mangle (Context.otherName name first?))) span ↔
    ctx.candidates (Context.triedNames name first?) = []
  /-- If there is a candidate, a call that is complained of as unresolved is in an argument. -/
  unresolvedInside : ∀ e, targetOf ctx scope span name args none = .error e →
    e.kind = .unresolvedCall → ctx.candidates (Context.triedNames name first?) ≠ [] →
      ∃ a ∈ args, a.typeOf ctx scope = .error e
  /-- No schema is called where an operation could be. -/
  operation : ∀ n ∈ Context.triedNames name first?, (ctx.registry.find? n).isSome →
    ∀ target, targetOf ctx scope span name args none = .ok target → ∃ op, target = .operation op
  /-- Calls of the same name with first arguments of the same type have the same target. -/
  same : ∀ scope' span' args', args'.head?.map (·.typeOf ctx scope') = first?.map .ok →
    ∀ target target', targetOf ctx scope span name args none = .ok target →
      targetOf ctx scope' span' name args' none = .ok target' → target = target'

theorem targetOf_eq_ok_iff (h : args.head?.map (·.typeOf ctx scope) = first?.map .ok)
    {target : Target} : targetOf ctx scope span name args none = .ok target ↔
      ∃ c, (ctx.candidates (Context.triedNames name first?)).head? = some c ∧
        c.target = target ∧ List.Forall₂ (Fills ctx scope) c.fields args := by
  have hother : (alternateName ctx scope name args).1 = .ok (Context.otherName name first?) :=
    alternateName_eq h
  rw [targetOf, bindCall_eq_ok_iff, ← Context.callee?_otherName]
  constructor
  · rintro ⟨other, c, hother', hc, hfill, htarget⟩
    cases hother.symm.trans hother'
    exact ⟨c, hc, htarget, hfill⟩
  · rintro ⟨c, hc, htarget, hfill⟩
    exact ⟨_, c, hother, hc, hfill, htarget⟩

/-- What a call is bound to rests on its name and on the type of its first argument; the arguments
fill the fields of that, or the call is refused. -/
theorem dispatches (ctx : Context) (scope : Scope) (span : Span) (name : String) (args : List Expr)
    (first? : Option StaticType) (h : args.head?.map (·.typeOf ctx scope) = first?.map .ok) :
    Dispatches ctx scope span name args first? where
  binds _ := targetOf_eq_ok_iff h
  unresolved := by
    rw [← List.head?_eq_none_iff, ← Context.callee?_otherName]
    constructor
    · intro he
      -- The complaint may be about an argument of the same name, but the names are looked up alike.
      exact callee?_of_typeOf (.call span name args none) (map_eq_error.2 he)
    · exact bindCall_of_callee?_eq_none (alternateName_eq h)
  unresolvedInside e he hkind hne := by
    rcases bindCall_eq_error he with ha | hkind' | hkind' | ⟨other, hother, hcallee⟩
    · exact ha
    · cases hkind.symm.trans hkind'
    · cases hkind.symm.trans hkind'
    · cases (alternateName_eq h).symm.trans hother
      have hnone := (Context.callee_eq_error.1 hcallee).1
      rw [Context.callee?_otherName, List.head?_eq_none_iff] at hnone
      exact absurd hnone hne
  operation n hn hop target htarget := by
    obtain ⟨op, hop⟩ := Option.isSome_iff_exists.1 hop
    obtain ⟨op', hhead⟩ := Context.exists_operation_of_mem hn hop
    obtain ⟨c, hc, rfl, _⟩ := (targetOf_eq_ok_iff h).1 htarget
    cases hhead.symm.trans hc
    exact ⟨op', rfl⟩
  same scope' span' args' h' target target' htarget htarget' := by
    obtain ⟨c, hc, rfl, _⟩ := (targetOf_eq_ok_iff h).1 htarget
    obtain ⟨c', hc', rfl, _⟩ := (targetOf_eq_ok_iff h').1 htarget'
    cases hc.symm.trans hc'
    rfl

/-! ### With the standard operations alone -/

/-- Nothing but the standard operations can be called. -/
def standardContext : Context := ⟨.standard, .empty⟩

def concat : Operation :=
  .native "string/concat" [("string", .string), ("value", .any)] .string .stringConcat "string"
    "Append any value's display form"

theorem candidates_concat :
    standardContext.candidates (Context.triedNames "concat" (some .string)) =
      [.ofOperation concat] := by
  have hplain : standardContext.registry.find? "concat" = none :=
    Registry.find?_standard_eq_none (by decide)
  have hmem : concat ∈ Operation.standard := by
    have hposition : Operation.standard[21]? = some concat := rfl
    exact List.mem_of_getElem? hposition
  have hstring : standardContext.registry.find? (Context.alternate .string "concat") =
      some concat :=
    Registry.find?_standard hmem
  have hschema n : standardContext.schemas.find? n = none := Table.find?_empty
  simp [Context.candidates, Context.triedNames, hplain, hstring, hschema]

theorem candidates_nope : standardContext.candidates (Context.triedNames "nope" none) = [] := by
  have hplain : standardContext.registry.find? "nope" = none :=
    Registry.find?_standard_eq_none (by decide)
  have hschema n : standardContext.schemas.find? n = none := Table.find?_empty
  simp [Context.candidates, Context.triedNames, hplain, hschema]

/-- The name and a string lead to the operation for strings, which takes any value behind it. -/
theorem dispatches_concat :
    [string ⟨7, 10⟩ "a", number ⟨12, 13⟩ .one].head?.map (·.typeOf standardContext .empty) =
      (some StaticType.string).map .ok ∧
    targetOf standardContext .empty ⟨0, 14⟩ "concat" [string ⟨7, 10⟩ "a", number ⟨12, 13⟩ .one]
      none = .ok (.operation concat) := by
  refine ⟨rfl,
    ((dispatches standardContext .empty ⟨0, 14⟩ "concat" _ (some .string) rfl).binds _).2 ?_⟩
  rw [candidates_concat]
  exact ⟨_, rfl, rfl, .cons ⟨_, rfl, nofun, .inr (.inr rfl)⟩
    (.cons ⟨_, rfl, nofun, .inl rfl⟩ .nil)⟩

theorem typeOf_nope : (call ⟨12, 18⟩ "nope" [] none).typeOf standardContext .empty =
    refuse (.unresolvedCall "nope" "nope" (mangle "nope") (mangle "nope")) ⟨12, 18⟩ := by
  have hnone : standardContext.callee? "nope" (Context.otherName "nope" none) = none :=
    Context.callee?_otherName.trans (congrArg List.head? candidates_nope)
  have hbind : (bindCall standardContext .empty ⟨12, 18⟩ "nope" []).1 = refuse
      (.unresolvedCall "nope" "nope" (mangle "nope") (mangle "nope")) ⟨12, 18⟩ :=
    bindCall_of_callee?_eq_none rfl hnone
  exact map_eq_error.2 hbind

/-- A call with an unknown call inside is refused for an unresolved call, although there is an
operation for it. -/
theorem unresolved_inside_concat :
    [string ⟨7, 10⟩ "a", call ⟨12, 18⟩ "nope" [] none].head?.map
        (·.typeOf standardContext .empty) =
      (some StaticType.string).map .ok ∧
    ¬ ((∃ e, targetOf standardContext .empty ⟨0, 19⟩ "concat"
        [string ⟨7, 10⟩ "a", call ⟨12, 18⟩ "nope" [] none] none = .error e ∧
          e.kind = .unresolvedCall) ↔
      standardContext.candidates (Context.triedNames "concat" (some .string)) = []) := by
  have hnamed : standardContext.checkNamed "concat" 2 ⟨0, 19⟩ = .ok () := by
    rw [Context.checkNamed, show standardContext.registry.find? "concat" = none from
      Registry.find?_standard_eq_none (by decide)]
  have hfound : ((string ⟨7, 10⟩ "a").infer standardContext .empty).1 >>=
      standardContext.calleeBy "concat" 2 ⟨0, 19⟩ ⟨7, 10⟩ = .ok (.ofOperation concat) := by
    refine Context.calleeBy_eq_ok.2 ⟨?_, rfl, fun f hf => ?_⟩
    · exact Context.callee?_otherName.trans (congrArg List.head? candidates_concat)
    · cases hf
      rfl
  have hsecond : ((call ⟨12, 18⟩ "nope" [] none).infer standardContext .empty).1 =
      refuse (.unresolvedCall "nope" "nope" (mangle "nope") (mangle "nope")) ⟨12, 18⟩ :=
    typeOf_nope
  have herror : targetOf standardContext .empty ⟨0, 19⟩ "concat"
      [string ⟨7, 10⟩ "a", call ⟨12, 18⟩ "nope" [] none] none =
        refuse (.unresolvedCall "nope" "nope" (mangle "nope") (mangle "nope")) ⟨12, 18⟩ := by
    rw [targetOf, bindCall_cons]
    simp only [List.length_singleton, Nat.reduceAdd, hnamed, span, hfound]
    change Except.map _ (inferFields _ _ _ [("value", .any)] _).1 = _
    rw [inferFields_cons, hsecond]
    rfl
  refine ⟨rfl, fun h => ?_⟩
  have hnil := h.1 ⟨_, herror, rfl⟩
  rw [candidates_concat] at hnil
  cases hnil

end Expr

end EventScript
