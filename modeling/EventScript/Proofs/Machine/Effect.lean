import EventScript.Machine
import Mathlib.Data.List.Basic

/-!
What operations do to their arguments and the world, apart from any stack. A native operation that
the machine carries out takes its arguments off the stack and does to the world what the operation
does to these arguments.
-/
namespace EventScript

/-- What is done to the world, up to a result or an error. -/
abbrev Effect := ExceptT RuntimeError (StateM World)

/-- An effect as part of a run: nothing but the world changes. -/
def Effect.lift (x : Effect α) : Machine α := fun s =>
  let (result, world) := x s.world
  (result, { s with world })

namespace Effect

def inspect (look : Heap → α) : Effect α := return look (← get).heap

def onHeap (act : Heap → Except RuntimeError α × Heap) : Effect α := fun w =>
  let (result, heap) := act w.heap
  (result, { w with heap })

def onContainer (act : Heap → Except ContainerError α × Heap) : Effect α :=
  onHeap fun heap => match act heap with
    | (.ok a, heap) => (.ok a, heap)
    | (.error e, heap) => (.error (.container e), heap)

def drawId : Effect Uuid := fun w => (.ok (w.ids w.drawn), { w with drawn := w.drawn + 1 })

def fieldIndex (n : Number) (r : Ref) : Effect Nat := do
  match n.index? with
  | some i => return i
  | none => throw (.container (.index Number.maxIndex (← inspect (·.fields r)).size))

def number : Value → Effect Number
  | .number n => return n
  | v => throw (.mismatch "number" v)

def string : Value → Effect String
  | .string s => return s
  | v => throw (.mismatch "string" v)

def list : Value → Effect Ref
  | .list r => return r
  | v => throw (.mismatch "list" v)

def dict : Value → Effect Ref
  | .dict r => return r
  | v => throw (.mismatch "dict" v)

def struct : Value → Effect Ref
  | .struct r => return r
  | v => throw (.mismatch "struct" v)

def vector : Value → Effect Vec3
  | .vector v => return v
  | v => throw (.mismatch "vec3" v)

def text : Value → Effect RichText
  | .text t => return t
  | v => throw (.mismatch "text" v)

end Effect

namespace NativeOp

/-- How many arguments an operation takes. -/
def arity : NativeOp → Nat
  | listNew | dictNew | uuidRandom => 0
  | listSize | structNew | vec3X | vec3Y | vec3Z | textNew | textContents | stringLength
  | numberToString => 1
  | listAppend | listGet | dictGet | dictHas | structGet | vec3Add | vec3Multiply | textColor
  | textAdd | stringConcat => 2
  | dictPut | structSet | vec3New => 3

/-- What the result is, if there is one. -/
def returns : NativeOp → StaticType
  | listAppend | dictPut | structSet => .void
  | listGet | dictGet | structNew | structGet | uuidRandom => .any
  | listSize | vec3X | vec3Y | vec3Z | stringLength => .number
  | dictHas => .bool
  | textContents | stringConcat | numberToString => .string
  | vec3New | vec3Add | vec3Multiply => .vec3
  | textNew | textColor | textAdd => .text
  | listNew => .list
  | dictNew => .dict

open Effect in
/-- What an operation does to its arguments, the last of which is looked at first. -/
def apply : NativeOp → List Value → Effect (Option Value)
  | .listNew, _ => return some (← onHeap fun h => (h.newList #[]).map .ok id)
  | .listAppend, [l, value] => do
    let r ← list l
    onContainer (·.push r value)
    return none
  | .listGet, [l, index] => do
    let n ← number index
    let r ← list l
    let items ← inspect (·.items r)
    match n.index?.bind (items[·]?) with
    | some item => return some item
    | none => throw (.listIndex n items.size)
  | .listSize, [l] => do
    let r ← list l
    return some (.number (.ofNat (← inspect (·.items r)).size))
  | .dictNew, _ => return some (← onHeap fun h => (h.newDict #[]).map .ok id)
  | .dictPut, [d, key, value] => do
    let r ← dict d
    let _ ← onContainer (·.insert r key value)
    return none
  | .dictGet, [d, key] => do
    let r ← dict d
    match ← inspect (·.get? r key) with
    | some value => return some value
    | none => throw (.missingKey (← inspect (·.display key)))
  | .dictHas, [d, key] => do
    let r ← dict d
    return some (.ofBool (← inspect (·.has r key)))
  | .structNew, [arity] => do
    let n ← number arity
    match n.index? with
    | some size =>
      if size ≤ Heap.maxArity then
        return some (← onContainer (·.newFilled size (.number .zero)))
      else throw (.structArity n)
    | none => throw (.structArity n)
  | .structGet, [s, index] => do
    let n ← number index
    let r ← struct s
    let i ← fieldIndex n r
    return some (← onContainer fun h => (h.field r i, h))
  | .structSet, [s, index, value] => do
    let n ← number index
    let r ← struct s
    let i ← fieldIndex n r
    onContainer (·.setField r i value)
    return none
  | .vec3New, [x, y, z] => do
    let z ← number z
    let y ← number y
    let x ← number x
    return some (.vector ⟨x, y, z⟩)
  | .vec3Add, [left, right] => do
    let right ← vector right
    let left ← vector left
    return some (.vector (left.add right))
  | .vec3Multiply, [left, right] => do
    let right ← vector right
    let left ← vector left
    return some (.vector (left.multiply right))
  | .vec3X, [v] => return some (.number (← vector v).x)
  | .vec3Y, [v] => return some (.number (← vector v).y)
  | .vec3Z, [v] => return some (.number (← vector v).z)
  | .textNew, [content] => return some (.text (.plain (← string content)))
  | .textColor, [t, color] => do
    let color ← string color
    let t ← text t
    match RichText.readColor? color with
    | none => throw (.invalidColor color)
    | some rgb =>
      match t.withColor rgb with
      | .ok t => return some (.text t)
      | .error _ => throw (.invalidColor color)
  | .textContents, [t] => return some (.string (← text t).contents)
  | .textAdd, [t, value] => do
    let t ← text t
    match value with
    | .text other => return some (.text (t.append other))
    | value => return some (.text (t.push ⟨← inspect (·.display value), none⟩))
  | .stringConcat, [s, value] => do
    let s ← string s
    return some (.string (s ++ (← inspect (·.display value))))
  | .stringLength, [s] => return some (.number (.ofNat (← string s).length))
  | .numberToString, [n] => return some (.string (← number n).text)
  | .uuidRandom, _ => return some (.uuid (← drawId))
  | _, _ => return none

end NativeOp

/-- The state with these operands in the running call. -/
def State.withStack (s : State) (stack : List Value) : State := { s with frame.stack := stack }

namespace Machine

variable {α β : Type} {s : State} {v : Value} {rest : List Value}

theorem lift_bind (x : Effect α) (f : α → Effect β) :
    Effect.lift (x >>= f) = x.lift >>= fun a => (f a).lift := by
  funext s
  simp only [Effect.lift, bind, ExceptT.bind, ExceptT.mk, ExceptT.bindCont, StateT.bind]
  rcases x s.world with ⟨_ | a, w⟩ <;> rfl

theorem lift_onHeap (act : Heap → Except RuntimeError α × Heap) :
    (Effect.onHeap act).lift = onHeap act := by
  funext s
  simp only [Effect.lift, Effect.onHeap, onHeap, bind, ExceptT.bind, ExceptT.mk,
    ExceptT.bindCont, StateT.bind, modifyGet, MonadStateOf.modifyGet, monadLift,
    MonadLift.monadLift, ExceptT.lift, Functor.map, StateT.map, StateT.modifyGet, pure]
  rcases act s.world.heap with ⟨_ | a, heap⟩ <;> rfl

theorem lift_onContainer (act : Heap → Except ContainerError α × Heap) :
    (Effect.onContainer act).lift = onContainer act := lift_onHeap _

theorem onHeap_apply (act : Heap → Except RuntimeError α × Heap) (s : State) :
    onHeap act s = ((act s.world.heap).1, { s with world.heap := (act s.world.heap).2 }) := by
  rw [← lift_onHeap]
  rfl

theorem lift_fieldIndex (n : Number) (r : Ref) :
    (Effect.fieldIndex n r).lift = fieldIndex n r := by
  unfold Effect.fieldIndex fieldIndex
  cases n.index? <;> rfl

/-- What is left of a part of a run: of a failed one only the world. -/
def settle : Except RuntimeError α × State → Except RuntimeError (α × State) × World
  | (.ok a, s) => (.ok (a, s), s.world)
  | (.error e, s) => (.error e, s.world)

/-- The machine takes these operands, the top first, and does what the effect does. -/
def Takes (operands : List Value) (m : Machine α) (x : Effect α) : Prop :=
  ∀ (s : State) (rest : List Value),
    settle (m (s.withStack (operands ++ rest))) = settle (x.lift (s.withStack rest))

variable {f : α → Machine β} {x : Effect α} {g : α → Effect β} {m : Machine α}
  {operands : List Value}

theorem bind_apply (m : Machine α) (f : α → Machine β) (s : State) :
    (m >>= f) s = match m s with
      | (.ok a, s) => f a s
      | (.error e, s) => (.error e, s) := by
  simp only [bind, ExceptT.bind, ExceptT.mk, ExceptT.bindCont, StateT.bind]
  rcases m s with ⟨_ | a, t⟩ <;> rfl

theorem lift_apply (x : Effect α) (s : State) :
    x.lift s = ((x s.world).1, { s with world := (x s.world).2 }) := rfl

theorem settle_lift (x : Effect α) (s : State) : settle (x.lift s) = match x s.world with
    | (.ok a, w) => (.ok (a, { s with world := w }), w)
    | (.error e, w) => (.error e, w) := by
  rw [lift_apply]
  rcases x s.world with ⟨e | a, w⟩ <;> rfl

theorem takes_append_bind {first : List Value} (hm : Takes first m x)
    (hf : ∀ a, Takes operands (f a) (g a)) : Takes (first ++ operands) (m >>= f) (x >>= g) := by
  intro s rest
  have hm := hm s (operands ++ rest)
  have hw : ∀ stack, (s.withStack stack).world = s.world := fun _ => rfl
  rw [settle_lift, hw] at hm
  rw [lift_bind, bind_apply, bind_apply, lift_apply, hw, List.append_assoc]
  rcases hx : x s.world with ⟨e | a, w⟩ <;>
    rcases hr : m (s.withStack (first ++ (operands ++ rest))) with ⟨e' | a', t⟩ <;>
    rw [hx, hr] at hm
  · simp only [settle, Prod.mk.injEq, Except.error.injEq] at hm
    simp only [settle, hm.1, hm.2]
  · cases hm
  · cases hm
  · simp only [settle, Prod.mk.injEq, Except.ok.injEq] at hm
    obtain ⟨⟨rfl, rfl⟩, _⟩ := hm
    exact hf a' { s with world := w } rest

/-- One operand is taken first. -/
theorem takes_bind {v : Value} (hm : Takes [v] m x) (hf : ∀ a, Takes operands (f a) (g a)) :
    Takes (v :: operands) (m >>= f) (x >>= g) := takes_append_bind hm hf

/-- Nothing is taken first. -/
theorem takes_bind_lift (hm : Takes [] m x) (hf : ∀ a, Takes operands (f a) (g a)) :
    Takes operands (m >>= f) (x >>= g) := takes_append_bind hm hf

theorem takes_lift (x : Effect α) : Takes [] x.lift x := fun _ _ => rfl

theorem takes_throw (e : RuntimeError) : Takes operands (throw e : Machine α) (throw e) :=
  fun _ _ => rfl

theorem takes_pop_bind {v : Value} {f : Value → Machine β} {x : Effect β}
    (h : Takes operands (f v) x) : Takes (v :: operands) (pop >>= f) x :=
  fun s rest => h s rest

theorem takes_popNumber : Takes [v] popNumber (Effect.number v) := by
  intro s rest
  cases v <;> rfl

theorem takes_popString : Takes [v] popString (Effect.string v) := by
  intro s rest
  cases v <;> rfl

theorem takes_popList : Takes [v] popList (Effect.list v) := by
  intro s rest
  cases v <;> rfl

theorem takes_popDict : Takes [v] popDict (Effect.dict v) := by
  intro s rest
  cases v <;> rfl

theorem takes_popStruct : Takes [v] popStruct (Effect.struct v) := by
  intro s rest
  cases v <;> rfl

theorem takes_popVector : Takes [v] popVector (Effect.vector v) := by
  intro s rest
  cases v <;> rfl

theorem takes_popText : Takes [v] popText (Effect.text v) := by
  intro s rest
  cases v <;> rfl

theorem takes_pure (a : α) : Takes [] (pure a : Machine α) (pure a) := takes_lift (pure a)

theorem takes_inspect (look : Heap → α) : Takes [] (inspect look) (Effect.inspect look) :=
  takes_lift (Effect.inspect look)

theorem takes_onHeap (act : Heap → Except RuntimeError α × Heap) :
    Takes [] (onHeap act) (Effect.onHeap act) := lift_onHeap act ▸ takes_lift _

theorem takes_onContainer (act : Heap → Except ContainerError α × Heap) :
    Takes [] (onContainer act) (Effect.onContainer act) := lift_onContainer act ▸ takes_lift _

theorem takes_drawId : Takes [] drawId Effect.drawId := takes_lift Effect.drawId

theorem takes_fieldIndex (n : Number) (r : Ref) :
    Takes [] (fieldIndex n r) (Effect.fieldIndex n r) := lift_fieldIndex n r ▸ takes_lift _

end Machine

open Machine in
/-- A native operation takes its arguments from the stack and leaves what lies below them. -/
theorem NativeOp.takes : ∀ (op : NativeOp) (args : List Value), args.length = op.arity →
    Takes args.reverse op.run (op.apply args)
  | .listNew, [], _ => takes_bind_lift (takes_onHeap _) fun _ => takes_pure _
  | .listAppend, [_, _], _ =>
    takes_pop_bind <| takes_bind takes_popList fun _ =>
      takes_bind_lift (takes_onContainer _) fun _ => takes_pure _
  | .listGet, [_, _], _ =>
    takes_bind takes_popNumber fun n => takes_bind takes_popList fun _ =>
      takes_bind_lift (takes_inspect _) fun items => by
        cases n.index?.bind (items[·]?) with
        | some item => exact takes_pure _
        | none => exact takes_throw _
  | .listSize, [_], _ =>
    takes_bind takes_popList fun _ => takes_bind_lift (takes_inspect _) fun _ => takes_pure _
  | .dictNew, [], _ => takes_bind_lift (takes_onHeap _) fun _ => takes_pure _
  | .dictPut, [_, _, _], _ =>
    takes_pop_bind <| takes_pop_bind <| takes_bind takes_popDict fun _ =>
      takes_bind_lift (takes_onContainer _) fun _ => takes_pure _
  | .dictGet, [_, _], _ =>
    takes_pop_bind <| takes_bind takes_popDict fun _ =>
      takes_bind_lift (takes_inspect _) fun found => by
        cases found with
        | some value => exact takes_pure _
        | none => exact takes_bind_lift (takes_inspect _) fun _ => takes_throw _
  | .dictHas, [_, _], _ =>
    takes_pop_bind <| takes_bind takes_popDict fun _ =>
      takes_bind_lift (takes_inspect _) fun _ => takes_pure _
  | .structNew, [_], _ =>
    takes_bind takes_popNumber fun n => by
      cases n.index? with
      | some size =>
        by_cases hsize : size ≤ Heap.maxArity
        · simp only [if_pos hsize]
          exact takes_bind_lift (takes_onContainer _) fun _ => takes_pure _
        · simp only [if_neg hsize]
          exact takes_throw _
      | none => exact takes_throw _
  | .structGet, [_, _], _ =>
    takes_bind takes_popNumber fun _ => takes_bind takes_popStruct fun _ =>
      takes_bind_lift (takes_fieldIndex _ _) fun _ =>
        takes_bind_lift (takes_onContainer _) fun _ => takes_pure _
  | .structSet, [_, _, _], _ =>
    takes_pop_bind <| takes_bind takes_popNumber fun _ =>
      takes_bind takes_popStruct fun _ => takes_bind_lift (takes_fieldIndex _ _) fun _ =>
        takes_bind_lift (takes_onContainer _) fun _ => takes_pure _
  | .vec3New, [_, _, _], _ =>
    takes_bind takes_popNumber fun _ => takes_bind takes_popNumber fun _ =>
      takes_bind takes_popNumber fun _ => takes_pure _
  | .vec3Add, [_, _], _ =>
    takes_bind takes_popVector fun _ => takes_bind takes_popVector fun _ => takes_pure _
  | .vec3Multiply, [_, _], _ =>
    takes_bind takes_popVector fun _ => takes_bind takes_popVector fun _ => takes_pure _
  | .vec3X, [_], _ => takes_bind takes_popVector fun _ => takes_pure _
  | .vec3Y, [_], _ => takes_bind takes_popVector fun _ => takes_pure _
  | .vec3Z, [_], _ => takes_bind takes_popVector fun _ => takes_pure _
  | .textNew, [_], _ => takes_bind takes_popString fun _ => takes_pure _
  | .textColor, [_, _], _ =>
    takes_bind takes_popString fun color => takes_bind takes_popText fun text => by
      cases RichText.readColor? color with
      | none => exact takes_throw _
      | some rgb =>
        simp only
        cases text.withColor rgb with
        | ok text => exact takes_pure _
        | error e => exact takes_throw _
  | .textContents, [_], _ => takes_bind takes_popText fun _ => takes_pure _
  | .textAdd, [_, value], _ =>
    takes_pop_bind <| takes_bind takes_popText fun _ => by
      cases value with
      | text other => exact takes_pure _
      | _ => exact takes_bind_lift (takes_inspect _) fun _ => takes_pure _
  | .stringConcat, [_, _], _ =>
    takes_pop_bind <| takes_bind takes_popString fun _ =>
      takes_bind_lift (takes_inspect _) fun _ => takes_pure _
  | .stringLength, [_], _ => takes_bind takes_popString fun _ => takes_pure _
  | .numberToString, [_], _ => takes_bind takes_popNumber fun _ => takes_pure _
  | .uuidRandom, [], _ => takes_bind_lift takes_drawId fun _ => takes_pure _

/-- A value has the kind of the type, if the type has one. -/
def StaticType.Describes (t : StaticType) (v : Value) : Prop :=
  ∀ {kind}, t.runtimeKind? = some kind → v.kind = kind

/-- A result is what a type promises: nothing for `void`, else a value that the type describes. -/
def StaticType.Promises (t : StaticType) : Option Value → Prop
  | none => t = .void
  | some v => t ≠ .void ∧ t.Describes v

namespace RuntimeError

/-- The error is about the machine itself: its code or its limits. -/
def IsInternal : RuntimeError → Prop
  | malformed _ | stackOverflow _ | callDepth _ => True
  | _ => False

end RuntimeError

namespace Effect

variable {α β : Type} {P : α → Prop} {Q : β → Prop} {x : Effect α}

/-- A result has the property, and an error is not about the machine. -/
def Yields (P : α → Prop) (x : Effect α) : Prop :=
  ∀ w, (∀ a w', x w = (.ok a, w') → P a) ∧ ∀ e w', x w = (.error e, w') → ¬e.IsInternal

theorem yields_pure {a : α} (h : P a) : Yields P (pure a) := by
  intro w
  constructor
  · rintro _ _ heq
    cases heq
    exact h
  · rintro _ _ heq
    cases heq

theorem yields_throw {e : RuntimeError} (h : ¬e.IsInternal) : Yields P (throw e) := by
  intro w
  constructor
  · rintro _ _ heq
    cases heq
  · rintro _ _ heq
    cases heq
    exact h

theorem bind_apply (x : Effect α) (f : α → Effect β) (w : World) :
    (x >>= f) w = match x w with
      | (.ok a, w) => f a w
      | (.error e, w) => (.error e, w) := by
  simp only [bind, ExceptT.bind, ExceptT.mk, ExceptT.bindCont, StateT.bind]
  rcases x w with ⟨_ | a, w⟩ <;> rfl

theorem yields_bind {f : α → Effect β} (hx : Yields P x) (hf : ∀ a, P a → Yields Q (f a)) :
    Yields Q (x >>= f) := by
  intro w
  rw [bind_apply]
  rcases h : x w with ⟨e | a, w₁⟩
  · constructor
    · rintro _ _ heq
      cases heq
    · rintro _ _ heq
      cases heq
      exact (hx w).2 e _ h
  · exact hf a ((hx w).1 a w₁ h) w₁

theorem yields_inspect {look : Heap → α} : Yields (fun _ => True) (inspect look) :=
  yields_bind (P := fun _ => True) (by
    intro w
    exact ⟨fun _ _ _ => trivial, fun _ _ h => by cases h⟩) fun _ _ => yields_pure trivial

theorem yields_onHeap {act : Heap → Except RuntimeError α × Heap}
    (hok : ∀ h a h', act h = (.ok a, h') → P a)
    (herror : ∀ h e h', act h = (.error e, h') → ¬e.IsInternal) : Yields P (onHeap act) := by
  intro w
  simp only [onHeap]
  rcases h : act w.heap with ⟨e | a, heap⟩
  · constructor
    · rintro _ _ heq
      cases heq
    · rintro _ _ heq
      cases heq
      exact herror _ _ _ h
  · constructor
    · rintro _ _ heq
      cases heq
      exact hok _ _ _ h
    · rintro _ _ heq
      cases heq

theorem yields_onContainer {act : Heap → Except ContainerError α × Heap}
    (hok : ∀ h a h', act h = (.ok a, h') → P a) : Yields P (onContainer act) := by
  apply yields_onHeap
  · intro h a h' heq
    split at heq
    · rename_i b heap hact
      cases heq
      exact hok _ _ _ hact
    · cases heq
  · intro h e h' heq
    split at heq
    · cases heq
    · cases heq
      exact id

theorem yields_drawId : Yields (fun _ => True) drawId := by
  intro w
  exact ⟨fun _ _ _ => trivial, fun _ _ h => by cases h⟩

theorem yields_fieldIndex {n : Number} {r : Ref} : Yields (fun _ => True) (fieldIndex n r) := by
  unfold fieldIndex
  split
  · exact yields_pure trivial
  · exact yields_bind yields_inspect fun _ _ => yields_throw id

theorem yields_number {v : Value} : Yields (fun _ => True) (number v) := by
  cases v
  case number => exact yields_pure trivial
  all_goals exact yields_throw id

theorem yields_string {v : Value} : Yields (fun _ => True) (string v) := by
  cases v
  case string => exact yields_pure trivial
  all_goals exact yields_throw id

theorem yields_list {v : Value} : Yields (fun _ => True) (list v) := by
  cases v
  case list => exact yields_pure trivial
  all_goals exact yields_throw id

theorem yields_dict {v : Value} : Yields (fun _ => True) (dict v) := by
  cases v
  case dict => exact yields_pure trivial
  all_goals exact yields_throw id

theorem yields_struct {v : Value} : Yields (fun _ => True) (struct v) := by
  cases v
  case struct => exact yields_pure trivial
  all_goals exact yields_throw id

theorem yields_vector {v : Value} : Yields (fun _ => True) (vector v) := by
  cases v
  case vector => exact yields_pure trivial
  all_goals exact yields_throw id

theorem yields_text {v : Value} : Yields (fun _ => True) (text v) := by
  cases v
  case text => exact yields_pure trivial
  all_goals exact yields_throw id

theorem yields_value {t : StaticType} {v : Value} (hvalued : t ≠ .void)
    (hkind : t.runtimeKind? = none ∨ t.runtimeKind? = some v.kind) :
    Yields t.Promises (pure (some v)) := by
  refine yields_pure ⟨hvalued, ?_⟩
  intro kind h
  rcases hkind with hnone | hsome
  · rw [hnone] at h
    cases h
  · rw [hsome] at h
    exact Option.some.inj h

theorem yields_nothing : Yields StaticType.void.Promises (pure none) := yields_pure rfl

end Effect

open Effect in
/-- A native operation answers what its type promises, and its errors are not about the machine. -/
theorem NativeOp.yields : ∀ (op : NativeOp) (args : List Value), args.length = op.arity →
    (op.apply args).Yields op.returns.Promises
  | .listNew, [], _ => by
    refine yields_bind (P := fun v => v.kind = .list) (yields_onHeap ?_ ?_) fun v hv =>
      yields_value (by decide) (.inr (by rw [hv]; rfl))
    · intro h a h' heq
      cases heq
      rfl
    · intro h e h' heq
      cases heq
  | .listAppend, [_, _], _ =>
    yields_bind yields_list fun _ _ =>
      yields_bind (yields_onContainer fun _ _ _ _ => trivial) fun _ _ => yields_nothing
  | .listGet, [_, _], _ =>
    yields_bind yields_number fun n _ => yields_bind yields_list fun _ _ =>
      yields_bind yields_inspect fun items _ => by
        split
        · exact yields_value (by decide) (.inl rfl)
        · exact yields_throw id
  | .listSize, [_], _ =>
    yields_bind yields_list fun _ _ => yields_bind yields_inspect fun _ _ =>
      yields_value (by decide) (.inr rfl)
  | .dictNew, [], _ => by
    refine yields_bind (P := fun v => v.kind = .dict) (yields_onHeap ?_ ?_) fun v hv =>
      yields_value (by decide) (.inr (by rw [hv]; rfl))
    · intro h a h' heq
      cases heq
      rfl
    · intro h e h' heq
      cases heq
  | .dictPut, [_, _, _], _ =>
    yields_bind yields_dict fun _ _ =>
      yields_bind (yields_onContainer fun _ _ _ _ => trivial) fun _ _ => yields_nothing
  | .dictGet, [_, _], _ =>
    yields_bind yields_dict fun _ _ => yields_bind yields_inspect fun found _ => by
      split
      · exact yields_value (by decide) (.inl rfl)
      · exact yields_bind yields_inspect fun _ _ => yields_throw id
  | .dictHas, [_, _], _ =>
    yields_bind yields_dict fun _ _ => yields_bind yields_inspect fun _ _ =>
      yields_value (by decide) (.inr rfl)
  | .structNew, [_], _ =>
    yields_bind yields_number fun n _ => by
      split
      · split
        · exact yields_bind (yields_onContainer fun _ _ _ _ => trivial) fun _ _ =>
            yields_value (by decide) (.inl rfl)
        · exact yields_throw id
      · exact yields_throw id
  | .structGet, [_, _], _ =>
    yields_bind yields_number fun _ _ => yields_bind yields_struct fun _ _ =>
      yields_bind yields_fieldIndex fun _ _ =>
        yields_bind (yields_onContainer fun _ _ _ _ => trivial) fun _ _ =>
          yields_value (by decide) (.inl rfl)
  | .structSet, [_, _, _], _ =>
    yields_bind yields_number fun _ _ => yields_bind yields_struct fun _ _ =>
      yields_bind yields_fieldIndex fun _ _ =>
        yields_bind (yields_onContainer fun _ _ _ _ => trivial) fun _ _ => yields_nothing
  | .vec3New, [_, _, _], _ =>
    yields_bind yields_number fun _ _ => yields_bind yields_number fun _ _ =>
      yields_bind yields_number fun _ _ => yields_value (by decide) (.inr rfl)
  | .vec3Add, [_, _], _ =>
    yields_bind yields_vector fun _ _ => yields_bind yields_vector fun _ _ =>
      yields_value (by decide) (.inr rfl)
  | .vec3Multiply, [_, _], _ =>
    yields_bind yields_vector fun _ _ => yields_bind yields_vector fun _ _ =>
      yields_value (by decide) (.inr rfl)
  | .vec3X, [_], _ => yields_bind yields_vector fun _ _ => yields_value (by decide) (.inr rfl)
  | .vec3Y, [_], _ => yields_bind yields_vector fun _ _ => yields_value (by decide) (.inr rfl)
  | .vec3Z, [_], _ => yields_bind yields_vector fun _ _ => yields_value (by decide) (.inr rfl)
  | .textNew, [_], _ => yields_bind yields_string fun _ _ => yields_value (by decide) (.inr rfl)
  | .textColor, [_, _], _ =>
    yields_bind yields_string fun _ _ => yields_bind yields_text fun _ _ => by
      split
      · exact yields_throw id
      · split
        · exact yields_value (by decide) (.inr rfl)
        · exact yields_throw id
  | .textContents, [_], _ =>
    yields_bind yields_text fun _ _ => yields_value (by decide) (.inr rfl)
  | .textAdd, [_, _], _ =>
    yields_bind yields_text fun _ _ => by
      split
      · exact yields_value (by decide) (.inr rfl)
      · exact yields_bind yields_inspect fun _ _ => yields_value (by decide) (.inr rfl)
  | .stringConcat, [_, _], _ =>
    yields_bind yields_string fun _ _ => yields_bind yields_inspect fun _ _ =>
      yields_value (by decide) (.inr rfl)
  | .stringLength, [_], _ =>
    yields_bind yields_string fun _ _ => yields_value (by decide) (.inr rfl)
  | .numberToString, [_], _ =>
    yields_bind yields_number fun _ _ => yields_value (by decide) (.inr rfl)
  | .uuidRandom, [], _ => yields_bind yields_drawId fun _ _ => yields_value (by decide) (.inl rfl)

end EventScript
