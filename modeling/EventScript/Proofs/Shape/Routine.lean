import EventScript.Proofs.Shape.Lowered

/-!
Routines that keep to shapes: each offset of the code has one shape, jumps lead to offsets that have
the shape at hand, and the code ends in the return that the routine's type asks for.
-/
namespace EventScript

/-- The return of a routine, and the shape that it finds. -/
inductive View.Returns (V : View) (type : StaticType) : Instruction → Shape → Prop where
  | nothing {σ} (void : type = .void) : V.Returns type .returnVoid σ
  | value {kind σ} (valued : type ≠ .void) (suits : V.suits type kind = true) :
      V.Returns type .returnValue (kind :: σ)

/-- The shape at an offset of code that begins without operands. -/
def Setting.shapeAt (E : Setting) (V : View) (code : Code) (n : Nat) : Option Shape :=
  E.flow V (code.toList.take n) []

/-- The code of a routine has a shape wherever it gets, and no operands at the marks. -/
structure Routine.Checks (r : Routine) (E : Setting) (V : View) (marks : List Nat) : Prop where
  slots : r.localCount = E.scope.slotCount
  params : ∀ {i : Nat} {name type}, r.params[i]? = some (name, type) →
    E.scope.typeAt i = some type
  body : ∃ body last σ, r.code.toList = body ++ [last] ∧ E.flow V body [] = some σ ∧
    E.Lands V (E.shapeAt V r.code) body [] ∧ V.Returns r.returns last σ
  marked : V.exact = true → ∀ mark ∈ marks, E.shapeAt V r.code mark = some []

namespace Setting

variable {E : Setting} {V : View} {σ τ : Shape} {code : List Instruction}

/-- Code that can be carried out has a shape everywhere. -/
theorem flow_take (h : E.flow V code σ = some τ) (k : Nat) :
    ∃ ρ, E.flow V (code.take k) σ = some ρ := by
  rw [← List.take_append_drop k code, flow_append] at h
  obtain ⟨ρ, hρ, _⟩ := Option.bind_eq_some_iff.1 h
  exact ⟨ρ, hρ⟩

theorem flow_take_succ {k : Nat} {i : Instruction} (hi : code[k]? = some i)
    (h : E.flow V (code.take k) σ = some τ) :
    E.flow V (code.take (k + 1)) σ = E.effect V i τ := by
  rw [List.take_add_one, hi, flow_append_eq h]
  simp [flow]

theorem effect_of_returns {r : StaticType} {last : Instruction} (h : V.Returns r last σ) :
    E.effect V last τ = none := by
  cases h <;> rfl

end Setting

namespace Routine.Checks

variable {r : Routine} {E : Setting} {V : View} {marks : List Nat} {σ : Shape} {n : Nat}

/-- Behind the end there is no shape. -/
theorem lt_of_shapeAt (h : r.Checks E V marks) (hn : E.shapeAt V r.code n = some σ) :
    n < r.code.size := by
  obtain ⟨body, last, τ, hcode, hflow, _, hreturns⟩ := h.body
  by_contra hge
  have hlength := Nat.le_of_not_lt hge
  rw [← Array.length_toList] at hlength
  rw [Setting.shapeAt, List.take_of_length_le hlength, hcode,
    Setting.flow_append_eq hflow] at hn
  simp [Setting.flow, Setting.effect_of_returns hreturns] at hn

/-- What stands at an offset that has a shape: the return, or an instruction after which code goes on
with the next shape. -/
theorem next (h : r.Checks E V marks) (hn : E.shapeAt V r.code n = some σ) :
    ∃ i, r.code[n]? = some i ∧ (V.Returns r.returns i σ ∨
      ∃ τ, E.effect V i σ = some τ ∧ E.shapeAt V r.code (n + 1) = some τ ∧
        ∀ target, i.target? = some target → E.shapeAt V r.code target = some τ) := by
  have hlt := h.lt_of_shapeAt hn
  obtain ⟨body, last, τ, hcode, hflow, hlands, hreturns⟩ := h.body
  have hi : ∀ {i}, (body ++ [last])[n]? = some i → r.code[n]? = some i := by
    intro i hi
    rw [← Array.getElem?_toList, hcode, hi]
  rw [← Array.length_toList, hcode, List.length_append, List.length_singleton] at hlt
  rw [Setting.shapeAt, hcode, List.take_append_of_le_length (by omega)] at hn
  by_cases hbody : n < body.length
  · have hentry : body[n]? = some body[n] := List.getElem?_eq_getElem hbody
    refine ⟨body[n], hi (by rw [List.getElem?_append_left hbody, hentry]), .inr ?_⟩
    have hsucc := Setting.flow_take_succ hentry hn
    obtain ⟨ρ, hρ⟩ := Setting.flow_take hflow (n + 1)
    refine ⟨ρ, by rw [← hsucc, hρ], ?_, ?_⟩
    · rw [Setting.shapeAt, hcode, List.take_append_of_le_length (by omega), hρ]
    · intro target ht
      rw [hlands n _ target hentry ht, hρ]
  · have hend : n = body.length := by omega
    rw [hend, List.take_length, hflow] at hn
    cases hn
    exact ⟨last, hi (by simp [hend]), .inl hreturns⟩

end Routine.Checks

/-- What the code of a program with these pools relies on, in a schema with this scope. -/
def Setting.of (ctx : Context) (pools : Pools) (scope : Scope) : Setting where
  constants := pools.literals.entries.map (·.1)
  operation? i := pools.hosts.entries[i]?.bind fun e => ctx.registry.find? e.1
  signature? i := ctx.schemas.entries[i]?.map (·.2)
  scope

theorem Setting.covers_of {ctx : Context} {pools : Pools} {s : Lowering}
    (hpools : s.pools.Extends pools) (hscope : s.scope.Sound) :
    (Setting.of ctx pools s.scope).Covers ctx s where
  constants := fun h => by
    rw [Setting.of, Array.getElem?_map, hpools.literals h]
    rfl
  operations := fun h => by
    simp only [Setting.of, hpools.hosts h, Option.bind_some]
  signatures := fun h => by
    simp only [Setting.of, h, Option.map_some]
  scope := .refl _
  sound := hscope

namespace Definition

variable {ctx : Context} {d : Definition} {before pools : Pools} {r : Routine} {marks : List Nat}
  {s' : Lowering} {V : View}

/-- The end of a body, behind what the body leaves. -/
theorem Ends.returns {E : Setting} {type : StaticType} {ending : Code} (h : d.Ends type ending)
    (plain : V.kinds = true → type.Plain) : ∃ code last σ, ending.toList = code ++ [last] ∧
      (∀ i ∈ code, i.target? = none) ∧ E.flow V code (V.result type ++ []) = some σ ∧
      V.Returns d.schema.returns last σ := by
  cases h with
  | nothing void =>
    exact ⟨(dropValue type).toList, .returnVoid, [], by simp, Setting.target_dropValue,
      Setting.flow_dropValue, .nothing void⟩
  | text returns =>
    refine ⟨[.toText], .returnValue, [V.seen (some .text)], rfl, by simp [Instruction.target?], rfl,
      .value ?_ ?_⟩
    · rw [returns]
      decide
    · rw [returns]
      simp [View.suits, View.kindOf, StaticType.runtimeKind?]
  | value returns valued fits =>
    refine ⟨(expectation d.schema.returns type).toList, .returnValue,
      [V.arrived d.schema.returns type], by simp, Setting.target_expectation, ?_,
      .value returns (View.suits_arrived fits plain)⟩
    rw [View.result_of_ne valued]
    exact Setting.flow_expectation

theorem Lowers.names (named : ctx.Named) (h : d.Lowers ctx before r marks s')
    (sound : before.Sound ctx.registry) : s'.scope.Sound := by
  obtain ⟨_, _, lowered, _⟩ := h
  exact ((lowered.grows named).sound ⟨Scope.sound_ofParams, sound⟩).names

/-- The routine of a schema keeps to shapes. -/
theorem Lowers.checks (named : ctx.Named) (declared : ctx.registry.All Operation.WellDeclared)
    (plain : V.kinds = true → ctx.Plain ∧ s'.scope.Plain) (h : d.Lowers ctx before r marks s')
    (sound : before.Sound ctx.registry) (extends' : s'.pools.Extends pools)
    (placed : V.Blind ∨ d.schema.body.IsStatement)
    (respects : d.schema.body.Respects ((Setting.of ctx pools s'.scope).Readable V)
      ((Setting.of ctx pools s'.scope).Loopable V)) :
    r.Checks (.of ctx pools s'.scope) V marks := by
  obtain ⟨body, distinct, lowered, ends⟩ := h
  rename_i span es type code ending
  have hstart : Lowering.Sound ctx ⟨before, .ofParams d.schema.params⟩ :=
    ⟨Scope.sound_ofParams, sound⟩
  have grows := lowered.grows named
  have hend := grows.sound hstart
  rw [body] at respects placed
  have hplaced : V.Placed (.statements .void es) type [] := placed.imp (⟨·, rfl⟩) (⟨·, rfl⟩)
  obtain ⟨_, rfl, hcode⟩ := lowered.checks named declared plain hstart
    (Setting.covers_of extends' hend.names) respects [] hplaced
  have htype : V.kinds = true → type.Plain := by
    intro hkinds
    obtain ⟨hctx, hscope⟩ := plain hkinds
    refine (lowered.plain named hctx (fun _ _ hl => hscope _ _ (grows.scope.kept hl)) ?_).1
    rintro _ _ ⟨⟩
    trivial
  obtain ⟨close, last, σ, hclose, hstraight, hflow, hreturns⟩ :=
    ends.returns (E := .of ctx pools s'.scope) htype
  have hwhole := hcode.append (.straight hstraight hflow)
  generalize hE : Setting.of ctx pools s'.scope = E at *
  have hscope : E.scope = s'.scope := by rw [← hE, Setting.of]
  have halong : E.Along V (E.shapeAt V (code ++ ending)) 0 (code.toList ++ close) [] := by
    intro k hk
    rw [Nat.zero_add, Setting.shapeAt, Array.toList_append, hclose, ← List.append_assoc,
      List.take_append_of_le_length hk]
  refine ⟨by rw [hscope], ?_, ⟨code.toList ++ close, last, σ, ?_, hwhole.flow,
    hwhole.lands _ halong, hreturns⟩, ?_⟩
  · intro i name t hp
    rw [hscope]
    simp only [params, List.getElem?_map, Option.map_eq_some_iff, Prod.mk.injEq] at hp
    obtain ⟨p, hp, rfl, rfl⟩ := hp
    exact Scope.typeAt_of_find? hend.names
      (grows.scope.kept (Scope.find?_ofParams_of_getElem? distinct hp))
  · rw [Array.toList_append, hclose, List.append_assoc]
  · intro hexact mark hmark
    exact hwhole.marked hexact _ halong mark (List.mem_append_left _ hmark)

end Definition

end EventScript
