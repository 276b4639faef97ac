import EventScript.Callable
import EventScript.Proofs.Shape.Routine
import Mathlib.Data.List.Forall2
import Mathlib.Logic.Relation

/-!
Runs of programs whose routines keep to shapes. Every call under way has operands of the shape of its
offset, and its variables hold values of their types. One step keeps that, so every run does; such a
run ends in a value that the called schema promises, or in an error that does not blame the code.
-/
namespace EventScript

/-- The value has the kind, if one is known. -/
def Value.Agrees (v : Value) (kind? : Option ValueKind) : Prop :=
  ∀ kind, kind? = some kind → v.kind = kind

namespace View

variable (V : View)

/-- Operands, the top first, have a shape. -/
def Fits : Shape → List Value → Prop
  | [], stack => V.exact = true → stack = []
  | kind :: σ, v :: stack => v.Agrees kind ∧ Fits σ stack
  | _ :: _, [] => False

/-- A result is what is known of a type: nothing for `void`, else a value. -/
def Delivers (type : StaticType) : Option Value → Prop
  | none => type = .void
  | some v => type ≠ .void ∧ v.Agrees (V.kindOf type)

variable {V} {σ : Shape} {stack : List Value} {type : StaticType} {kind : Option ValueKind}
  {v : Value}

theorem of_fits_cons (h : V.Fits (kind :: σ) stack) :
    ∃ v rest, stack = v :: rest ∧ v.Agrees kind ∧ V.Fits σ rest := by
  cases stack with
  | nil => exact h.elim
  | cons v rest => exact ⟨v, rest, rfl, h⟩

theorem agrees_of_describes (h : type.Describes v) : v.Agrees (V.kindOf type) := by
  intro kind hkind
  unfold kindOf seen at hkind
  split at hkind
  · exact h hkind
  · cases hkind

theorem agrees_of_suits (h : V.suits type kind = true) (hv : v.Agrees kind) :
    v.Agrees (V.kindOf type) := by
  simp only [suits, Bool.or_eq_true, decide_eq_true_eq] at h
  rcases h with hnone | rfl
  · intro k hk
    rw [hnone] at hk
    cases hk
  · exact hv

theorem agrees_seen : v.Agrees (V.seen (some v.kind)) := by
  intro kind h
  unfold seen at h
  split at h
  · exact Option.some.inj h
  · cases h

theorem delivers_of_promises {result : Option Value} (h : type.Promises result) :
    V.Delivers type result := by
  cases result with
  | none => exact h
  | some v => exact ⟨h.1, agrees_of_describes h.2⟩

theorem fits_result {result : Option Value} (h : V.Delivers type result) (hσ : V.Fits σ stack) :
    V.Fits (V.result type ++ σ) (result.toList ++ stack) := by
  cases result with
  | none =>
    rw [Delivers] at h
    subst h
    exact hσ
  | some v =>
    rw [result_of_ne h.1]
    exact ⟨h.2, hσ⟩

/-- With an operand that no shape counts, only the number of operands is known. -/
theorem fits_blank (h : V.Fits σ stack) (hexact : V.exact = false) :
    V.Fits (σ.map fun _ => none) (v :: stack) := by
  induction σ generalizing v stack with
  | nil =>
    intro h
    rw [hexact] at h
    cases h
  | cons kind σ ih =>
    cases stack with
    | nil => exact h.elim
    | cons u stack =>
      refine ⟨?_, ih h.2⟩
      intro k hk
      cases hk

theorem length_eq_of_fits (h : V.Fits σ stack) (hexact : V.exact = true) :
    stack.length = σ.length := by
  induction σ generalizing stack with
  | nil =>
    rw [h hexact]
    rfl
  | cons kind σ ih =>
    cases stack with
    | nil => exact h.elim
    | cons v stack => rw [List.length_cons, List.length_cons, ih h.2]

theorem fits_split {n : Nat} (h : V.Fits σ stack) (hn : n ≤ σ.length) :
    List.Forall₂ Value.Agrees (stack.take n) (σ.take n) ∧ n ≤ stack.length ∧
      V.Fits (σ.drop n) (stack.drop n) := by
  induction n generalizing σ stack with
  | zero => exact ⟨.nil, Nat.zero_le _, h⟩
  | succ n ih =>
    cases σ with
    | nil => cases hn
    | cons kind σ =>
      cases stack with
      | nil => exact h.elim
      | cons v stack =>
        obtain ⟨h₁, h₂, h₃⟩ := ih h.2 (Nat.le_of_succ_le_succ hn)
        exact ⟨.cons h.1 h₁, Nat.succ_le_succ h₂, h₃⟩

/-- Arguments are of the types they are passed for. -/
theorem agrees_of_passes : ∀ {types : List StaticType} {kinds : Shape} {args : List Value},
    V.passes types kinds = true → List.Forall₂ Value.Agrees args kinds →
      List.Forall₂ (fun type v => v.Agrees (V.kindOf type)) types args
  | [], [], _, _, .nil => .nil
  | _ :: _, _ :: _, _, h, .cons hv hargs => by
    simp only [passes, Bool.and_eq_true] at h
    exact .cons (agrees_of_suits h.1 hv) (agrees_of_passes h.2 hargs)

/-- What a call finds on the stack. -/
theorem of_called {params : List StaticType} {argc : Nat} {returns : Bool} {τ : Shape}
    (h : V.called params type argc returns σ = some τ) (hσ : V.Fits σ stack) :
    argc = params.length ∧ argc ≤ stack.length ∧ returns = decide (type ≠ .void) ∧
      List.Forall₂ (fun type v => v.Agrees (V.kindOf type)) params (stack.take argc).reverse ∧
      ∃ ρ, τ = V.result type ++ ρ ∧ V.Fits ρ (stack.drop argc) := by
  unfold called at h
  split at h
  · rename_i hcall
    obtain ⟨hargc, hpasses, hreturns⟩ := hcall
    have hlength := length_eq_of_passes hpasses
    rw [List.length_reverse, List.length_take, ← hargc] at hlength
    obtain ⟨hargs, hle, hrest⟩ := fits_split hσ (n := argc) (by omega)
    cases h
    exact ⟨hargc, hle, hreturns,
      agrees_of_passes hpasses (List.forall₂_reverse_iff.2 hargs), _, rfl, hrest⟩
  · cases h

end View

/-- A variable holds what its type says, and so does the operand that it becomes. -/
theorem View.fits_loaded {V : View} {type? : Option StaticType} {σ τ : Shape} {stack : List Value}
    {v : Value} (h : V.loaded type? σ = some τ) (hσ : V.Fits σ stack)
    (hv : ∀ {type}, type? = some type → v.Agrees (V.kindOf type)) : V.Fits τ (v :: stack) := by
  cases type? with
  | none =>
    cases h
    refine ⟨?_, hσ⟩
    intro kind hkind
    cases hkind
  | some type =>
    by_cases hvoid : type = .void
    · subst hvoid
      simp only [loaded, Option.ite_none_left_eq_some, Bool.not_eq_true, Option.some.injEq] at h
      obtain ⟨hexact, rfl⟩ := h
      exact fits_blank hσ hexact
    · rw [loaded_of_ne hvoid] at h
      cases h
      exact ⟨hv rfl, hσ⟩

namespace Effect

variable {v : Value} {w w' : World} {call : HostFunction} {args : List Value} {returns : Bool}

theorem yields_numbers {op : Number → Number → Value} {a b : Value}
    (hop : ∀ x y, (op x y).kind = .number) :
    (numbers op a b).Yields StaticType.number.Promises :=
  yields_bind yields_number fun _ _ => yields_bind yields_number fun _ _ =>
    yields_value (by decide) (.inr (by rw [hop]; rfl))

theorem yields_toText : (toText v).Yields StaticType.text.Promises := by
  cases v
  case string => exact yields_value (by decide) (.inr rfl)
  case text => exact yields_value (by decide) (.inr rfl)
  all_goals exact yields_throw id

theorem yields_truth : (truth v).Yields fun _ => True := by
  cases v
  case number => exact yields_pure trivial
  all_goals exact yields_throw id

theorem of_host_eq_ok {v? : Option Value} (h : host call args returns w = (.ok v?, w')) :
    ∃ v heap, call args w.heap = (.ok v, heap) ∧ v? = if returns then some v else none := by
  simp only [host, bind_apply, onHeap] at h
  rcases hcall : call args w.heap with ⟨e | v, heap⟩ <;> rw [hcall] at h
  · cases h
  · cases h
    exact ⟨v, heap, rfl, rfl⟩

theorem of_host_eq_error {e : RuntimeError} (h : host call args returns w = (.error e, w')) :
    ∃ heap, call args w.heap = (.error e, heap) := by
  simp only [host, bind_apply, onHeap] at h
  rcases hcall : call args w.heap with ⟨e' | v, heap⟩ <;> rw [hcall] at h
  · cases h
    exact ⟨heap, rfl⟩
  · cases h

end Effect

namespace Routine

variable {r : Routine} {args : List Value} {k : Nat}

@[simp] theorem size_slots : (r.slots args).size = r.localCount := by
  simp [slots]
  omega

theorem getElem?_slots (hk : k < r.localCount) : (r.slots args)[k]? = some args[k]? := by
  rw [slots, List.getElem?_toArray]
  by_cases hargs : k < args.length
  · rw [List.getElem?_append_left (by simp; omega), List.getElem?_map, List.getElem?_take,
      if_pos hk, List.getElem?_eq_getElem hargs]
    rfl
  · rw [List.getElem?_append_right (by simp; omega), List.getElem?_replicate,
      List.getElem?_eq_none (by omega), if_pos (by simp; omega)]

end Routine

/-- Variables hold values of their types. -/
structure Setting.Holds (E : Setting) (V : View) (locals : Array (Option Value)) : Prop where
  size : locals.size = E.scope.slotCount
  agrees : ∀ {slot : Nat} {type v}, E.scope.typeAt slot = some type →
    locals[slot]? = some (some v) → v.Agrees (V.kindOf type)

namespace Setting

variable {E : Setting} {V : View} {locals : Array (Option Value)} {slot : Nat} {v : Value}

theorem Holds.store (h : E.Holds V locals)
    (hv : ∀ {type}, E.scope.typeAt slot = some type → v.Agrees (V.kindOf type)) :
    E.Holds V (locals.setIfInBounds slot (some v)) where
  size := by rw [Array.size_setIfInBounds, h.size]
  agrees := by
    intro k type u hk hu
    rw [Array.getElem?_setIfInBounds] at hu
    split at hu
    · rename_i heq
      split at hu
      · cases hu
        exact hv (heq ▸ hk)
      · cases hu
    · exact h.agrees hk hu

/-- A call begins with arguments of its parameters' types. -/
theorem holds_slots {r : Routine} {marks : List Nat} {args : List Value}
    (hr : r.Checks E V marks)
    (hargs : List.Forall₂ (fun p v => v.Agrees (V.kindOf p.2)) r.params args) :
    E.Holds V (r.slots args) where
  size := by rw [Routine.size_slots, hr.slots]
  agrees := by
    intro slot type v hslot hv
    have hlt : slot < (r.slots args).size := (Array.getElem?_eq_some_iff.1 hv).1
    rw [Routine.size_slots] at hlt
    rw [Routine.getElem?_slots hlt] at hv
    obtain ⟨hk, rfl⟩ := List.getElem?_eq_some_iff.1 (Option.some.inj hv)
    have hk' : slot < r.params.length := by rw [hargs.length_eq]; exact hk
    have hp := hr.params (List.getElem?_eq_getElem hk')
    rw [hslot] at hp
    cases hp
    exact (List.forall₂_iff_get.1 hargs).2 slot hk' hk

end Setting

/-- What the code of each routine relies on, and its marks. -/
abbrev Routine.Reliance := Routine → Setting → List Nat → Prop

/-- A program whose routines keep to shapes. -/
structure Program.Keeps (p : Program) (registry : Registry) (V : View)
    (relies : Routine.Reliance) : Prop where
  routine : ∀ {i : Nat} {r}, p.routines[i]? = some r → ∃ E marks, relies r E marks
  checks : ∀ {r E marks}, relies r E marks → r.Checks E V marks
  constants : ∀ {r E marks} {i : Nat} {l}, relies r E marks → E.constants[i]? = some l →
    p.constants[i]? = some l
  operations : ∀ {r E marks} {i : Nat} {op}, relies r E marks → E.operation? i = some op →
    ∃ name call, registry.find? name = some op ∧ op.action = .host call ∧
      p.hosts[i]? = some call
  signatures : ∀ {r E marks} {i : Nat} {sig}, relies r E marks → E.signature? i = some sig →
    ∃ callee, p.routines[i]? = some callee ∧ callee.params = sig.params ∧
      callee.returns = sig.returns
  answers : V.kinds = true → registry.All Operation.KeepsKind

section

variable (V : View) (relies : Routine.Reliance)

/-- A call under way. Its operands, and the result that it waits for, have the shape of its offset. -/
def Frame.Stands (frame : Frame) (awaited : Shape) : Prop :=
  ∃ E marks σ, relies frame.routine E marks ∧
    E.shapeAt V frame.routine.code frame.next = some (awaited ++ σ) ∧ V.Fits σ frame.stack ∧
    E.Holds V frame.locals

/-- The calls that wait for a result of type `type`, when the first call is to answer `answer`. -/
def Waiting (answer : StaticType) : StaticType → List (Frame × Bool) → Prop
  | type, [] => type = answer
  | type, (frame, takes) :: callers => takes = decide (type ≠ .void) ∧
    frame.Stands V relies (V.result type) ∧ Waiting answer frame.routine.returns callers

/-- Every call of the state stands at the shape of its offset. -/
structure State.Stands (answer : StaticType) (s : State) : Prop where
  frame : s.frame.Stands V relies []
  callers : Waiting V relies answer s.frame.routine.returns s.callers

/-- What a step may lead to. -/
def Progress.Safe (registry : Registry) (answer : StaticType) : Progress → Prop
  | .running s => s.Stands V relies answer
  | .finished (.ok result) _ => V.Delivers answer result
  | .finished (.error e) _ => (registry.All fun op => ¬op.Raises e) → ¬e.IsInternal

/-- What a run may end in: a result of the type, or an error that is not about the machine unless
a callback or a limit raises it. -/
def Answer.Accounted (p : Program) (registry : Registry) (type : StaticType) : Answer → Prop
  | .ok result => V.Delivers type result
  | .error e => (registry.All fun op => ¬op.Raises e) → e.IsInternal →
      e = .callDepth p.limits.callDepth ∨ e = .stackOverflow p.limits.stack ∧
        ∃ s : State, s.Stands V relies type ∧ p.limits.stack < s.frame.stack.length

end

namespace Program.Keeps

variable {p : Program} {registry : Registry} {V : View} {relies : Routine.Reliance}
  {answer : StaticType} {s : State} {E : Setting} {marks : List Nat} {σ τ : Shape}
  {stack : List Value}

/-- The running call goes on at an offset of the shape. -/
theorem stands_goto {n : Nat} {w : World} {locals : Array (Option Value)}
    (hs : s.Stands V relies answer) (hE : relies s.frame.routine E marks)
    (hn : E.shapeAt V s.frame.routine.code n = some σ) (hσ : V.Fits σ stack)
    (hlocals : E.Holds V locals) : State.Stands V relies answer
      ((({ s with frame.locals := locals } : State).goto n stack).inWorld w) :=
  ⟨⟨E, marks, σ, hE, hn, hσ, hlocals⟩, hs.callers⟩

/-- A result goes to the innermost waiting call. -/
theorem safe_answer {result : Option Value} {type : StaticType}
    (h : Waiting V relies answer type s.callers) (hresult : V.Delivers type result) :
    (s.answer result).Safe V relies registry answer := by
  unfold State.answer
  split
  · rename_i hc
    rw [hc] at h
    cases h
    exact hresult
  · rename_i frame callers _ hc
    rw [hc] at h
    obtain ⟨htakes, ⟨E, marks, σ, hE, hσ, hfits, hlocals⟩, hrest⟩ := h
    have hvoid : type = .void := by simpa using htakes
    subst hvoid
    exact ⟨⟨E, marks, σ, hE, hσ, hfits, hlocals⟩, hrest⟩
  · rename_i frame callers v hc
    rw [hc] at h
    obtain ⟨_, ⟨E, marks, σ, hE, hσ, hfits, hlocals⟩, hrest⟩ := h
    exact ⟨⟨E, marks, _, hE, hσ, View.fits_result hresult hfits, hlocals⟩, hrest⟩
  · rename_i hc
    rw [hc] at h
    obtain ⟨htakes, _⟩ := h
    rw [View.Delivers] at hresult
    simp [hresult] at htakes

/-- An instruction that does to the world what an effect does. -/
theorem safe_of_effect {x : Effect (Option Value)} {rest : List Value}
    (hs : s.Stands V relies answer) (hE : relies s.frame.routine E marks)
    (hnext : E.shapeAt V s.frame.routine.code (s.frame.next + 1) = some τ)
    (hlocals : E.Holds V s.frame.locals)
    (hfree : p.free s = match x s.world with
      | (.ok v?, w) => .running ((s.goto (s.frame.next + 1) (v?.toList ++ rest)).inWorld w)
      | (.error e, w) => .finished (.error e) w)
    (hok : ∀ v? w, x s.world = (.ok v?, w) → V.Fits τ (v?.toList ++ rest))
    (herror : ∀ e w, x s.world = (.error e, w) →
      (registry.All fun op => ¬op.Raises e) → ¬e.IsInternal) :
    (p.free s).Safe V relies registry answer := by
  rw [hfree]
  rcases h : x s.world with ⟨e | v?, w⟩
  · exact herror e w h
  · exact stands_goto hs hE hnext (hok v? w h) hlocals

/-- The same for an effect that yields a result of a type. -/
theorem safe_of_yields {x : Effect (Option Value)} {rest : List Value} {type : StaticType}
    (hs : s.Stands V relies answer) (hE : relies s.frame.routine E marks)
    (hnext : E.shapeAt V s.frame.routine.code (s.frame.next + 1) = some (V.result type ++ σ))
    (hlocals : E.Holds V s.frame.locals)
    (hfree : p.free s = match x s.world with
      | (.ok v?, w) => .running ((s.goto (s.frame.next + 1) (v?.toList ++ rest)).inWorld w)
      | (.error e, w) => .finished (.error e) w)
    (hx : x.Yields type.Promises) (hrest : V.Fits σ rest) :
    (p.free s).Safe V relies registry answer := by
  refine safe_of_effect hs hE hnext hlocals hfree ?_ ?_
  · intro v? w h
    exact View.fits_result (View.delivers_of_promises ((hx s.world).1 v? w h)) hrest
  · intro e w h _
    exact (hx s.world).2 e w h

theorem safe_call {function argc : Nat} {returns : Bool} (hp : p.Keeps registry V relies)
    (hs : s.Stands V relies answer) (hE : relies s.frame.routine E marks)
    (hlocals : E.Holds V s.frame.locals) (hfits : V.Fits σ s.frame.stack)
    (hi : s.instruction? = some (.call function argc returns))
    (heffect : E.effect V (.call function argc returns) σ = some τ)
    (hnext : E.shapeAt V s.frame.routine.code (s.frame.next + 1) = some τ) :
    (p.free s).Safe V relies registry answer := by
  obtain ⟨sig, hsig, hcalled⟩ := Option.bind_eq_some_iff.1 heffect
  obtain ⟨callee, hcallee, hparams, hreturns⟩ := hp.signatures hE hsig
  obtain ⟨hargc, hle, htakes, hargs, ρ, rfl, hrest⟩ := View.of_called hcalled hfits
  rw [← hparams, List.forall₂_map_left_iff] at hargs
  rw [← hreturns] at htakes hnext
  rw [Program.free_call hi hle hcallee]
  obtain ⟨E', marks', hE'⟩ := hp.routine hcallee
  refine ⟨⟨E', marks', [], hE', rfl, fun _ => rfl, ?_⟩, htakes, ?_, hs.callers⟩
  · exact Setting.holds_slots (hp.checks hE') hargs
  · exact ⟨E, marks, ρ, hE, hnext, hrest, hlocals⟩

theorem safe_invokeHost {i argc : Nat} {returns : Bool} (hp : p.Keeps registry V relies)
    (hs : s.Stands V relies answer) (hE : relies s.frame.routine E marks)
    (hlocals : E.Holds V s.frame.locals) (hfits : V.Fits σ s.frame.stack)
    (hi : s.instruction? = some (.invokeHost i argc returns))
    (heffect : E.effect V (.invokeHost i argc returns) σ = some τ)
    (hnext : E.shapeAt V s.frame.routine.code (s.frame.next + 1) = some τ) :
    (p.free s).Safe V relies registry answer := by
  obtain ⟨op, hop, hcalled⟩ := Option.bind_eq_some_iff.1 heffect
  obtain ⟨name, call, hfind, haction, hcall⟩ := hp.operations hE hop
  obtain ⟨hargc, hle, hreturns, hargs, ρ, rfl, hrest⟩ := View.of_called hcalled hfits
  have hstack : s.frame.stack =
      (s.frame.stack.take argc).reverse.reverse ++ s.frame.stack.drop argc := by
    rw [List.reverse_reverse, List.take_append_drop]
  refine safe_of_effect hs hE hnext hlocals
    (Program.free_invokeHost hi hstack (by simp [hle]) hcall) ?_ ?_
  · intro v? w h
    obtain ⟨v, heap, hv, rfl⟩ := Effect.of_host_eq_ok h
    refine View.fits_result ?_ hrest
    by_cases hvoid : op.returns = .void
    · rw [hreturns, if_neg (by simp [hvoid])]
      exact hvoid
    · rw [hreturns, if_pos (by simpa using hvoid)]
      refine ⟨hvoid, ?_⟩
      cases hkinds : V.kinds with
      | true => exact View.agrees_of_describes (Registry.All.of (hp.answers hkinds) hfind haction hv)
      | false =>
        rw [View.kindOf_of_kinds hkinds]
        intro kind hkind
        cases hkind
  · intro e w h hnever
    obtain ⟨heap, he⟩ := Effect.of_host_eq_error h
    exact absurd ⟨call, _, _, heap, haction, he⟩ (hnever.of hfind)

theorem safe_numbers {op : Number → Number → Value} {first second : Option ValueKind}
    (hs : s.Stands V relies answer) (hE : relies s.frame.routine E marks)
    (hlocals : E.Holds V s.frame.locals) (hfits : V.Fits (second :: first :: σ) s.frame.stack)
    (hnext : E.shapeAt V s.frame.routine.code (s.frame.next + 1) = some (V.seen (some .number) :: σ))
    (hkind : ∀ x y, (op x y).kind = .number)
    (hfree : ∀ {a b rest}, s.frame.stack = b :: a :: rest →
      p.free s = match Effect.numbers op a b s.world with
        | (.ok v?, w) => .running ((s.goto (s.frame.next + 1) (v?.toList ++ rest)).inWorld w)
        | (.error e, w) => .finished (.error e) w) :
    (p.free s).Safe V relies registry answer := by
  obtain ⟨b, rest, hstack, _, hfits⟩ := View.of_fits_cons hfits
  obtain ⟨a, rest, rfl, _, hrest⟩ := View.of_fits_cons hfits
  exact safe_of_yields hs hE hnext hlocals (hfree hstack) (Effect.yields_numbers hkind) hrest

/-- A step keeps every call at the shape of its offset. -/
theorem safe_free (hp : p.Keeps registry V relies) (hs : s.Stands V relies answer) :
    (p.free s).Safe V relies registry answer := by
  obtain ⟨E, marks, σ, hE, hσ, hfits, hlocals⟩ := hs.frame
  rw [List.nil_append] at hσ
  obtain ⟨i, hi, hreturns | ⟨τ, heffect, hnext, hjump⟩⟩ := (hp.checks hE).next hσ
  · cases hreturns with
    | nothing void =>
      rw [Program.free_returnVoid hi]
      exact safe_answer hs.callers void
    | value valued suits =>
      obtain ⟨v, rest, hstack, hagrees, _⟩ := View.of_fits_cons hfits
      rw [Program.free_returnValue hi hstack]
      exact safe_answer hs.callers ⟨valued, View.agrees_of_suits suits hagrees⟩
  cases i with
  | pushConstant k =>
    obtain ⟨l, hl, rfl⟩ := Option.map_eq_some_iff.1 heffect
    rw [Program.free_pushConstant hi (hp.constants hE hl)]
    exact stands_goto hs hE hnext ⟨View.agrees_seen, hfits⟩ hlocals
  | loadLocal slot =>
    simp only [Setting.effect, Option.ite_none_right_eq_some] at heffect
    obtain ⟨hslot, heffect⟩ := heffect
    rw [← hlocals.size] at hslot
    rcases hv : s.frame.locals[slot]? with _ | _ | v
    · rw [Array.getElem?_eq_getElem hslot] at hv
      cases hv
    · rw [Program.free_loadLocal_unassigned hi hv]
      exact fun _ => id
    · rw [Program.free_loadLocal hi hv]
      exact stands_goto hs hE hnext (View.fits_loaded heffect hfits (hlocals.agrees · hv)) hlocals
  | storeLocal slot =>
    cases σ with
    | nil => cases heffect
    | cons kind σ =>
      simp only [Setting.effect, Option.ite_none_right_eq_some, Option.some.injEq] at heffect
      obtain ⟨⟨hslot, hstores⟩, rfl⟩ := heffect
      obtain ⟨v, rest, hstack, hagrees, hrest⟩ := View.of_fits_cons hfits
      rw [← hlocals.size] at hslot
      rw [Program.free_storeLocal hi hstack hslot]
      refine stands_goto hs hE hnext hrest (hlocals.store ?_)
      intro type htype
      rw [htype] at hstores
      exact View.agrees_of_suits hstores hagrees
  | pop =>
    cases σ with
    | nil => cases heffect
    | cons kind σ =>
      cases heffect
      obtain ⟨v, rest, hstack, _, hrest⟩ := View.of_fits_cons hfits
      rw [Program.free_pop hi hstack]
      exact stands_goto hs hE hnext hrest hlocals
  | arithmetic op =>
    rcases σ with _ | ⟨second, _ | ⟨first, σ⟩⟩
    iterate 2 cases heffect
    cases heffect
    exact safe_numbers hs hE hlocals hfits hnext (fun _ _ => rfl) (Program.free_arithmetic hi)
  | lessThan =>
    rcases σ with _ | ⟨second, _ | ⟨first, σ⟩⟩
    iterate 2 cases heffect
    cases heffect
    exact safe_numbers hs hE hlocals hfits hnext (fun _ _ => rfl) (Program.free_lessThan hi)
  | atLeast =>
    rcases σ with _ | ⟨second, _ | ⟨first, σ⟩⟩
    iterate 2 cases heffect
    cases heffect
    exact safe_numbers hs hE hlocals hfits hnext (fun _ _ => rfl) (Program.free_atLeast hi)
  | expect kind =>
    cases σ with
    | nil => cases heffect
    | cons found σ =>
      cases heffect
      obtain ⟨v, rest, hstack, _, hrest⟩ := View.of_fits_cons hfits
      rw [Program.free_expect hi hstack]
      by_cases hkind : v.kind = kind
      · subst hkind
        rw [if_pos rfl, hstack]
        exact stands_goto hs hE hnext ⟨View.agrees_seen, hrest⟩ hlocals
      · rw [if_neg hkind]
        exact fun _ => id
  | toText =>
    cases σ with
    | nil => cases heffect
    | cons kind σ =>
      cases heffect
      obtain ⟨v, rest, hstack, _, hrest⟩ := View.of_fits_cons hfits
      exact safe_of_yields hs hE hnext hlocals (Program.free_toText hi hstack)
        Effect.yields_toText hrest
  | jumpIfFalse target =>
    cases σ with
    | nil => cases heffect
    | cons kind σ =>
      cases heffect
      obtain ⟨v, rest, hstack, _, hrest⟩ := View.of_fits_cons hfits
      rw [Program.free_jumpIfFalse hi hstack]
      rcases htruth : Effect.truth v s.world with ⟨e | b, w⟩
      · exact fun _ => (Effect.yields_truth s.world).2 e w htruth
      · refine stands_goto hs hE ?_ hrest hlocals
        split
        · exact hnext
        · exact hjump _ rfl
  | jump target =>
    cases heffect
    rw [Program.free_jump hi]
    exact stands_goto hs hE (hjump _ rfl) hfits hlocals
  | native op =>
    simp only [Setting.effect, Option.ite_none_right_eq_some, Option.some.injEq] at heffect
    obtain ⟨harity, rfl⟩ := heffect
    obtain ⟨_, hle, hrest⟩ := View.fits_split hfits harity
    have hstack : s.frame.stack =
        (s.frame.stack.take op.arity).reverse.reverse ++ s.frame.stack.drop op.arity := by
      rw [List.reverse_reverse, List.take_append_drop]
    have hlength : (s.frame.stack.take op.arity).reverse.length = op.arity := by simp [hle]
    exact safe_of_yields hs hE hnext hlocals (Program.free_native hi hstack hlength)
      (op.yields _ hlength) hrest
  | invokeHost i argc returns => exact safe_invokeHost hp hs hE hlocals hfits hi heffect hnext
  | call function argc returns => exact safe_call hp hs hE hlocals hfits hi heffect hnext
  | returnValue | returnVoid => cases heffect

end Program.Keeps

/-! ### Whole runs -/

/-- Some steps lead from one state to another. -/
def Program.Reaches (p : Program) : State → State → Prop :=
  Relation.ReflTransGen fun s s' => p.step s = .running s'

/-- A state of a run that a call of the entry point starts. -/
inductive Callable.Visits (c : Callable) (args : List Value) (world : World) : State → Prop where
  | intro {i r s} (entry : c.entry = .routine i) (routine : c.program.routines[i]? = some r)
      (arguments : r.checkArguments args = .ok ())
      (reaches : c.program.Reaches (.start r args world) s) : c.Visits args world s

theorem describes_of_checkKinds : ∀ {params : List (String × StaticType)} {args : List Value},
    args.length = params.length → checkKinds params args = .ok () →
      List.Forall₂ (fun p v => p.2.Describes v) params args
  | [], [], _, _ => .nil
  | (name, type) :: params, v :: args, hlength, h => by
    have hlength := Nat.succ.inj hlength
    unfold checkKinds at h
    cases hkind : type.runtimeKind? with
    | none =>
      simp only [hkind] at h
      refine .cons ?_ (describes_of_checkKinds hlength h)
      intro kind hk
      rw [hkind] at hk
      cases hk
    | some kind =>
      simp only [hkind] at h
      split at h
      · rename_i hv
        refine .cons ?_ (describes_of_checkKinds hlength h)
        intro k hk
        rw [hkind] at hk
        cases hk
        exact hv
      · cases h

/-- Arguments that a schema takes are of its parameters' types. -/
theorem Routine.describes_of_checkArguments {r : Routine} {args : List Value}
    (h : r.checkArguments args = .ok ()) :
    List.Forall₂ (fun p v => p.2.Describes v) r.params args := by
  unfold checkArguments at h
  split at h
  · rename_i hlength
    exact describes_of_checkKinds hlength h
  · cases h

theorem not_isInternal_of_checkKinds : ∀ {params : List (String × StaticType)}
    {args : List Value} {e : RuntimeError}, checkKinds params args = .error e → ¬e.IsInternal
  | [], _, _, h | _ :: _, [], _, h => by cases h
  | (name, type) :: params, v :: args, e, h => by
    unfold checkKinds at h
    cases hkind : type.runtimeKind? with
    | none =>
      simp only [hkind] at h
      exact not_isInternal_of_checkKinds h
    | some kind =>
      simp only [hkind] at h
      split at h
      · exact not_isInternal_of_checkKinds h
      · cases h
        exact id

theorem Routine.not_isInternal_of_checkArguments {r : Routine} {args : List Value}
    {e : RuntimeError} (h : r.checkArguments args = .error e) : ¬e.IsInternal := by
  unfold checkArguments at h
  split at h
  · exact not_isInternal_of_checkKinds h
  · cases h
    exact id

namespace Program.Keeps

variable {p : Program} {registry : Registry} {V : View} {relies : Routine.Reliance}
  {type : StaticType} {s s' : State} {i : Nat} {r : Routine} {args : List Value} {w w' : World}
  {answer : Answer}

theorem stands_start (hp : p.Keeps registry V relies) (hr : p.routines[i]? = some r)
    (hargs : r.checkArguments args = .ok ()) :
    (State.start r args w).Stands V relies r.returns := by
  obtain ⟨E, marks, hE⟩ := hp.routine hr
  refine ⟨⟨E, marks, [], hE, rfl, fun _ => rfl, ?_⟩, rfl⟩
  exact Setting.holds_slots (hp.checks hE)
    ((Routine.describes_of_checkArguments hargs).imp fun _ _ => View.agrees_of_describes)

theorem stands_of_step (hp : p.Keeps registry V relies) (hs : s.Stands V relies type)
    (h : p.step s = .running s') : s'.Stands V relies type := by
  have hsafe := hp.safe_free hs
  rw [Program.free_eq_running h] at hsafe
  exact hsafe

/-- What holds at the start holds in every state that the run comes to. -/
theorem stands_of_reaches (hp : p.Keeps registry V relies) (hs : s.Stands V relies type)
    (h : p.Reaches s s') : s'.Stands V relies type := by
  induction h with
  | refl => exact hs
  | tail _ hstep ih => exact hp.stands_of_step ih hstep

theorem stands_of_waiting {type' : StaticType} {callers : List (Frame × Bool)} {frame : Frame}
    (h : Waiting V relies type type' callers) (hframe : frame ∈ callers.map (·.1)) :
    ∃ awaited, frame.Stands V relies awaited := by
  induction callers generalizing type' with
  | nil => cases hframe
  | cons caller callers ih =>
    obtain ⟨_, hcaller, hrest⟩ := h
    rcases List.mem_cons.1 hframe with rfl | hframe
    · exact ⟨_, hcaller⟩
    · exact ih hrest hframe

/-- Every call under way stands at the shape of its offset. -/
theorem stands_of_mem_frames {frame : Frame} (hs : s.Stands V relies type)
    (hframe : frame ∈ s.frames) : ∃ awaited, frame.Stands V relies awaited := by
  rcases List.mem_cons.1 hframe with rfl | hframe
  · exact ⟨_, hs.frame⟩
  · exact stands_of_waiting hs.callers hframe

theorem stands_of_visits {c : Callable} (hp : c.program.Keeps registry V relies)
    (h : c.Visits args w s) : ∃ type, s.Stands V relies type := by
  obtain ⟨_, hr, hargs, hreaches⟩ := h
  exact ⟨_, hp.stands_of_reaches (hp.stands_start hr hargs) hreaches⟩

/-- A callback gets arguments that its operation declares. -/
theorem declared_of_invocation {call : HostFunction} {passed : List Value}
    (hp : p.Keeps registry V relies) (hs : s.Stands V relies type)
    (h : p.invocation? s = some (call, passed)) : ∃ name op,
      registry.find? name = some op ∧ op.action = .host call ∧
        List.Forall₂ (fun field v => v.Agrees (V.kindOf field.type)) op.fields passed := by
  unfold Program.invocation? at h
  split at h
  · rename_i i argc returns hi
    obtain ⟨E, marks, σ, hE, hσ, hfits, _⟩ := hs.frame
    obtain ⟨i', hi', hreturns | ⟨τ, heffect, _⟩⟩ := (hp.checks hE).next hσ <;>
      rw [State.instruction?, hi'] at hi <;> cases hi
    · cases hreturns
    · obtain ⟨op, hop, hcalled⟩ := Option.bind_eq_some_iff.1 heffect
      obtain ⟨name, call', hfind, haction, hcall⟩ := hp.operations hE hop
      obtain ⟨_, hle, _, hargs, _⟩ := View.of_called hcalled hfits
      rw [if_pos hle, hcall] at h
      cases h
      exact ⟨name, op, hfind, haction, List.forall₂_map_left_iff.1 hargs⟩
  · cases h

theorem accounted_of_step (hp : p.Keeps registry V relies) (hs : s.Stands V relies type)
    (h : p.step s = .finished answer w) : answer.Accounted V relies p registry type := by
  have hsafe := hp.safe_free hs
  cases answer with
  | ok result =>
    rw [Program.free_eq_answer h] at hsafe
    exact hsafe
  | error e =>
    intro hnever hinternal
    rcases Program.free_eq_error h with hfree | hdepth | ⟨hstack, s', hs', hlimit⟩
    · rw [hfree] at hsafe
      exact absurd hinternal (hsafe hnever)
    · exact .inl hdepth
    · rw [hs'] at hsafe
      exact .inr ⟨hstack, s', hsafe, hlimit⟩

theorem accounted_of_run (hp : p.Keeps registry V relies) {fuel : Nat}
    (hs : s.Stands V relies type) (h : p.run fuel s = some (answer, w)) :
    answer.Accounted V relies p registry type := by
  induction fuel generalizing s with
  | zero => cases h
  | succ fuel ih =>
    unfold Program.run at h
    split at h
    · rename_i hstep
      exact ih (hp.stands_of_step hs hstep) h
    · rename_i hstep
      cases h
      exact hp.accounted_of_step hs hstep

/-- What a call of a schema may end in. -/
theorem accounted_of_invoke {fuel : Nat} (hp : p.Keeps registry V relies)
    (hr : p.routines[i]? = some r)
    (h : Callable.invoke ⟨p, .routine i⟩ fuel args w = some (answer, w')) :
    answer.Accounted V relies p registry r.returns := by
  simp only [Callable.invoke, hr] at h
  cases hargs : r.checkArguments args with
  | error e =>
    simp only [hargs, Option.some.injEq, Prod.mk.injEq] at h
    obtain ⟨rfl, rfl⟩ := h
    exact fun _ hinternal => absurd hinternal (Routine.not_isInternal_of_checkArguments hargs)
  | ok =>
    simp only [hargs, Program.execute, Program.enter, hr] at h
    by_cases hdepth : p.limits.callDepth ≤ 0
    · simp only [ge_iff_le, hdepth, if_true, Option.some.injEq, Prod.mk.injEq] at h
      obtain ⟨rfl, rfl⟩ := h
      exact fun _ _ => .inl rfl
    · simp only [ge_iff_le, hdepth, if_false] at h
      exact hp.accounted_of_run (hp.stands_start hr hargs) h

end Program.Keeps

end EventScript
