import EventScript.Proofs.Shape.Compiled
import EventScript.Proofs.Submission

/-!
Stack discipline. Whenever a run of a corpus comes to a statement or to the head of a loop, the
running call has no operands, and everywhere the number of operands is one that the code alone
says. A variable of type `void`, which only a parameter can be, breaks that: reading one leaves an
operand that nobody takes, so such a parameter must not be read.
-/
namespace EventScript

/-! ### The number of operands -/

/-- How many operands there are after an instruction that finds this many. -/
def Instruction.heightAfter : Instruction → Nat → Nat
  | pushConstant _, h | loadLocal _, h => h + 1
  | storeLocal _, h | pop, h | jumpIfFalse _, h | arithmetic _, h | lessThan, h | atLeast, h =>
    h - 1
  | expect _, h | toText, h | jump _, h | returnValue, h | returnVoid, h => h
  | native op, h => h - op.arity + if op.returns = .void then 0 else 1
  | invokeHost _ argc returns, h | call _ argc returns, h => h - argc + if returns then 1 else 0

/-- How many operands a call has at an offset of its code. -/
def heightAt (code : Code) (n : Nat) : Nat :=
  (code.toList.take n).foldl (fun h i => i.heightAfter h) 0

theorem Instruction.heightAfter_le (i : Instruction) (h : Nat) : i.heightAfter h ≤ h + 1 := by
  cases i with
  | native op =>
    simp only [heightAfter]
    split <;> omega
  | invokeHost _ argc returns | call _ argc returns =>
    simp only [heightAfter]
    split <;> omega
  | _ =>
    simp only [heightAfter]
    omega

theorem foldl_heightAfter_le (code : List Instruction) (h : Nat) :
    code.foldl (fun h i => i.heightAfter h) h ≤ h + code.length := by
  induction code generalizing h with
  | nil => exact Nat.le_refl _
  | cons i code ih =>
    have := ih (i.heightAfter h)
    have := i.heightAfter_le h
    simp only [List.foldl_cons, List.length_cons]
    omega

/-- No offset has more operands than the code has instructions. -/
theorem heightAt_le (code : Code) (n : Nat) : heightAt code n ≤ code.size := by
  have h := foldl_heightAfter_le (code.toList.take n) 0
  rw [List.length_take, Array.length_toList] at h
  unfold heightAt
  omega

namespace View

/-- The number of operands is tracked, and all of them are counted. -/
def counted : View := ⟨false, true⟩

theorem length_result (type : StaticType) :
    (counted.result type).length = if type = .void then 0 else 1 := by
  unfold result
  split <;> rfl

end View

namespace Setting

variable {E : Setting} {σ τ : Shape}

theorem length_of_called {params : List StaticType} {type : StaticType} {argc : Nat}
    {returns : Bool} (h : View.counted.called params type argc returns σ = some τ) :
    τ.length = σ.length - argc + if returns then 1 else 0 := by
  unfold View.called at h
  split at h
  · rename_i hcall
    obtain ⟨_, _, rfl⟩ := hcall
    cases h
    rw [List.length_append, View.length_result, List.length_drop, Nat.add_comm]
    by_cases hvoid : type = .void <;> simp [hvoid]
  · cases h

/-- Shapes are as long as the code says. -/
theorem length_of_effect {i : Instruction} (h : E.effect View.counted i σ = some τ) :
    τ.length = i.heightAfter σ.length := by
  cases i with
  | pushConstant k =>
    obtain ⟨_, _, rfl⟩ := Option.map_eq_some_iff.1 h
    rfl
  | loadLocal slot =>
    simp only [effect, Option.ite_none_right_eq_some] at h
    obtain ⟨_, h⟩ := h
    unfold View.loaded at h
    split at h
    · cases h
    · cases h
      rfl
    · cases h
      rfl
  | native op =>
    simp only [effect, Option.ite_none_right_eq_some, Option.some.injEq] at h
    obtain ⟨_, rfl⟩ := h
    rw [List.length_append, View.length_result, List.length_drop, Nat.add_comm]
    rfl
  | invokeHost k argc returns =>
    obtain ⟨_, _, h⟩ := Option.bind_eq_some_iff.1 h
    exact length_of_called h
  | call k argc returns =>
    obtain ⟨_, _, h⟩ := Option.bind_eq_some_iff.1 h
    exact length_of_called h
  | storeLocal slot =>
    cases σ with
    | nil => cases h
    | cons kind σ =>
      simp only [effect, Option.ite_none_right_eq_some, Option.some.injEq] at h
      rw [← h.2]
      rfl
  | arithmetic | lessThan | atLeast =>
    rcases σ with _ | ⟨_, _ | ⟨_, σ⟩⟩ <;> cases h
    rfl
  | pop | expect | toText | jumpIfFalse =>
    cases σ <;> cases h
    rfl
  | jump =>
    cases h
    rfl
  | returnValue | returnVoid => cases h

theorem length_of_flow {code : List Instruction} (h : E.flow View.counted code σ = some τ) :
    τ.length = code.foldl (fun h i => i.heightAfter h) σ.length := by
  induction code generalizing σ with
  | nil =>
    cases h
    rfl
  | cons i code ih =>
    obtain ⟨ρ, hρ, h⟩ := Option.bind_eq_some_iff.1 h
    rw [List.foldl_cons, ← length_of_effect hρ]
    exact ih h

end Setting

/-! ### Variables of type `void` -/

/-- New variables have values. -/
def Scope.AddsValued (s s' : Scope) : Prop :=
  ∀ name l, s'.find? name = some l → s.find? name = some l ∨ l.type ≠ .void

namespace Scope

variable {s s' s'' : Scope} {slot : Nat} {name : String} {type : StaticType} {l : Local}

theorem AddsValued.refl (s : Scope) : s.AddsValued s := fun _ _ => .inl

theorem AddsValued.trans (h : s.AddsValued s') (h' : s'.AddsValued s'') : s.AddsValued s'' := by
  intro name l hl
  rcases h' name l hl with hl | hl
  · exact h name l hl
  · exact .inr hl

theorem addsValued_of_temporary? (h : s.temporary? = some (slot, s')) : s.AddsValued s' := by
  obtain ⟨_, _, rfl⟩ := temporary?_eq_some_iff.1 h
  exact fun _ _ => .inl

theorem addsValued_of_declare? (h : s.declare? name type = some (l, s')) (ht : type ≠ .void) :
    s.AddsValued s' := by
  rcases declare?_eq_some_iff.1 h with ⟨_, rfl⟩ | ⟨_, _, rfl, rfl⟩
  · exact .refl _
  · intro n k hk
    by_cases hn : n = name
    · subst hn
      rw [find?_add_self] at hk
      cases hk
      exact .inr ht
    · rw [find?_add_of_ne hn] at hk
      exact .inl hk

end Scope

namespace Lowered

variable {ctx : Context} {start : Nat} {phrase : Phrase} {s s' : Lowering} {type : StaticType}
  {code : Code} {marks : List Nat}

theorem addsValued_of_literal {l : Literal} {span : Span} {i : Nat}
    (h : Lower.literal l span s = .ok (i, s')) : s.scope.AddsValued s'.scope := by
  rw [Lowering.scope_of_literal h]
  exact .refl _

theorem valued_of_operand {expected : StaticType} {e : Expr}
    (h : Lowered ctx start (.operand expected e) s type code marks s') : type ≠ .void := by
  cases h with
  | operand _ valued _ => exact valued

/-- A variable of type `void` is none that the code assigns. -/
theorem addsValued (h : Lowered ctx start phrase s type code marks s') :
    s.scope.AddsValued s'.scope := by
  induction h with
  | literal _ place => exact addsValued_of_literal place
  | read | noStatements | noArguments => exact .refl _
  | write stored place ih =>
    exact ih.trans (Scope.addsValued_of_declare? place (valued_of_operand stored))
  | arithmetic _ _ ih₁ ih₂ | branch _ _ ih₁ ih₂ | statements _ _ ih₁ ih₂ | arguments _ _ ih₁ ih₂ =>
    exact ih₁.trans ih₂
  | branchElse _ _ _ ih₁ ih₂ ih₃ => exact ih₁.trans (ih₂.trans ih₃)
  | loop _ slot unit _ ih₁ ih₂ =>
    exact ih₁.trans ((Scope.addsValued_of_temporary? slot).trans
      ((addsValued_of_literal unit).trans ih₂))
  | each _ itemsSlot indexSlot itemSlot zero unit _ ih₁ ih₂ =>
    refine ih₁.trans ((Scope.addsValued_of_temporary? itemsSlot).trans ?_)
    refine (Scope.addsValued_of_temporary? indexSlot).trans ?_
    refine (Scope.addsValued_of_declare? itemSlot (by decide)).trans ?_
    exact (addsValued_of_literal zero).trans ((addsValued_of_literal unit).trans ih₂)
  | block _ ih | operand _ _ _ ih | body _ ih => exact ih
  | call _ _ made ih =>
    rw [Lowering.scope_of_target made]
    exact ih

end Lowered

/-- No parameter of type `void` is read. -/
def Definition.ReadsValues (d : Definition) : Prop :=
  d.schema.body.Respects
    (fun name => ∀ p ∈ d.schema.params, p.name = name → p.type ≠ .void) fun _ => True

/-- The call has no operands if it has come to a statement or to the head of a loop. -/
def Frame.IsDisciplined (ctx : Context) (ds : List Definition) (frame : Frame) : Prop :=
  ∃ d ∈ ds, ∃ before marks s', d.lower ctx { pools := before } = .ok (frame.routine, s') ∧
    d.Lowers ctx before frame.routine marks s' ∧ (frame.next ∈ marks → frame.stack = [])

namespace Submission

variable {registry : Registry} {limits : Limits} {source : Submission} {ds : List Definition}
  {schemas : Table String Signature} {p : Program} {pools : Pools} {frame : Frame}
  {awaited : Shape}

/-- Programs of source texts keep to the number of operands. -/
theorem keeps_counted (declared : registry.All Operation.WellDeclared)
    (sources : ∀ d ∈ ds, d.schema.IsSource) (reads : ∀ d ∈ ds, d.ReadsValues)
    (h : p.Lowers ⟨registry, schemas⟩ ds pools) :
    p.Keeps registry View.counted (p.reliance ⟨registry, schemas⟩ ds pools) := by
  refine h.keeps declared (by rintro ⟨⟩) (by rintro ⟨⟩) fun d hd => ?_
  refine ⟨.inr (sources d hd).body, by rintro ⟨⟩, fun _ hlowers => ?_⟩
  obtain ⟨_, distinct, lowered, _⟩ := hlowers
  refine Expr.Respects.imp ?_ ?_ _ (reads d hd)
  · intro name hname _ l hl
    rcases lowered.addsValued name l hl with hl | hvalued
    · obtain ⟨q, hq, rfl, htype⟩ := Scope.getElem?_of_find?_ofParams distinct hl
      rw [← htype]
      exact hname q (List.mem_of_getElem? hq) rfl
    · exact hvalued
  · exact fun name _ l _ => View.kindOf_of_kinds rfl

theorem isDisciplined_of_stands (hkeeps : p.Keeps registry View.counted
      (p.reliance ⟨registry, schemas⟩ ds pools))
    (h : frame.Stands View.counted (p.reliance ⟨registry, schemas⟩ ds pools) awaited) :
    frame.IsDisciplined ⟨registry, schemas⟩ ds := by
  obtain ⟨E, marks, σ, hE, hσ, hfits, _⟩ := h
  have hempty := (hkeeps.checks hE).marked rfl frame.next
  obtain ⟨_, d, hd, before, s', hlower, hlowers, _⟩ := hE
  refine ⟨d, hd, before, marks, s', hlower, hlowers, ?_⟩
  intro hmark
  have hnone := hempty hmark
  rw [hσ, Option.some.injEq, List.append_eq_nil_iff] at hnone
  rw [hnone.2] at hfits
  exact hfits rfl

/-- A running call has as many operands as its code says. -/
theorem height_of_stands
    (h : frame.Stands View.counted (p.reliance ⟨registry, schemas⟩ ds pools) awaited) :
    frame.routine ∈ p.routines ∧
      awaited.length + frame.stack.length = heightAt frame.routine.code frame.next := by
  obtain ⟨E, marks, σ, hE, hσ, hfits, _⟩ := h
  refine ⟨hE.1, ?_⟩
  rw [View.length_eq_of_fits hfits rfl, ← List.length_append]
  exact Setting.length_of_flow hσ

/-- In every run of what source texts are compiled to, a call has no operands at a statement or at
the head of a loop, and everywhere as many as its code says. So a stack overflow is the code's
own: it cannot depend on how often a loop comes round. -/
theorem stackDisciplined (declared : registry.All Operation.WellDeclared)
    (hds : source.definitions = .ok ds)
    (hschemas : Definition.signatures Table.empty ds = .ok schemas)
    (reads : ∀ d ∈ ds, d.ReadsValues) (h : source.compile registry limits = .ok p) {i : Nat}
    {r : Routine} (hr : p.routines[i]? = some r) (args : List Value) (world : World) :
    (∀ s, Callable.Visits ⟨p, .routine i⟩ args world s →
      (∀ frame ∈ s.frames, frame.IsDisciplined ⟨registry, schemas⟩ ds ∧
        frame.stack.length ≤ frame.routine.code.size) ∧
      s.frame.stack.length = heightAt s.frame.routine.code s.frame.next) ∧
    ∀ fuel n world', Callable.invoke ⟨p, .routine i⟩ fuel args world =
      some (.error (.stackOverflow n), world') →
      (registry.All fun op => ¬op.Raises (.stackOverflow n)) →
      ∃ r ∈ p.routines, ∃ k, limits.stack < heightAt r.code k := by
  have sources := isSource_of_definitions hds
  rw [compile_eq, hds] at h
  obtain ⟨schemas', pools, hschemas', hp, hlimits⟩ := Program.lowers_of_ofDefinitions
    declared.named (fun d hd => (sources d hd).body.unbound) h
  rw [hschemas] at hschemas'
  cases hschemas'
  have hkeeps := keeps_counted declared sources reads hp
  constructor
  · intro s hs
    obtain ⟨type, hstands⟩ := Program.Keeps.stands_of_visits hkeeps hs
    constructor
    · intro frame hframe
      obtain ⟨awaited, h⟩ := Program.Keeps.stands_of_mem_frames hstands hframe
      have hheight := (height_of_stands h).2
      have hbound := heightAt_le frame.routine.code frame.next
      exact ⟨isDisciplined_of_stands hkeeps h, by omega⟩
    · have hheight := (height_of_stands hstands.frame).2
      rwa [List.length_nil, Nat.zero_add] at hheight
  · intro fuel n world' hinvoke hnever
    rcases hkeeps.accounted_of_invoke hr hinvoke hnever trivial with h | ⟨_, s, hs, hlimit⟩
    · cases h
    · obtain ⟨hmem, hheight⟩ := height_of_stands hs.frame
      rw [List.length_nil, Nat.zero_add] at hheight
      rw [hlimits, hheight] at hlimit
      exact ⟨_, hmem, _, hlimit⟩

theorem readsValues_echo : ∀ d ∈ [Definition.echo], d.ReadsValues := by
  intro d hd
  cases List.mem_singleton.1 hd
  refine ⟨?_, trivial⟩
  intro q hq _
  cases List.mem_singleton.1 hq
  decide

theorem stackDisciplined_echo : Registry.standard.All Operation.WellDeclared ∧
    echo.definitions = .ok [.echo] ∧ Definition.echo.ReadsValues ∧
    echo.compile Registry.standard {} = .ok .echo ∧
    (State.start Definition.echoRoutine [.number .one] .blank).frame.IsDisciplined
      (.echo Registry.standard) [.echo] ∧
    ([.number .one] : List Value).length = heightAt Definition.echoRoutine.code 1 := by
  have declared : Registry.standard.All Operation.WellDeclared :=
    Registry.wellDeclared_of_withHosts (Q := fun _ => True) .standard
  have visits := (stackDisciplined declared definitions_echo
    (Definition.signatures_echo Registry.standard) readsValues_echo (compile_echo _) (i := 0) rfl
    [.number .one] .blank).1
  have start : Callable.Visits ⟨.echo, .routine 0⟩ [.number .one] .blank
      (.start Definition.echoRoutine [.number .one] .blank) := .intro rfl rfl rfl .refl
  have second : Callable.Visits ⟨.echo, .routine 0⟩ [.number .one] .blank
      ((State.start Definition.echoRoutine [.number .one] .blank).goto 1 [.number .one]) :=
    .intro rfl rfl rfl (.single rfl)
  exact ⟨declared, definitions_echo, readsValues_echo _ List.mem_cons_self, compile_echo _,
    ((visits _ start).1 _ List.mem_cons_self).1, (visits _ second).2⟩

end Submission

end EventScript
