import EventScript.Proofs.Lowering.Typing
import EventScript.Proofs.Simulation.Follows

/-!
Slots and variables. Where a variable has a slot, the slot holds what the variable has been assigned;
slots that no variable has are those of loops.
-/
namespace EventScript

namespace Scope

/-- Slots hold the variables of the scope. -/
structure Stores (scope : Scope) (env : Env) (locals : Array (Option Value)) : Prop where
  size : locals.size = scope.slotCount
  holds : ∀ {name l}, scope.find? name = some l → locals[l.slot]? = some (env name)

/-- Below this slot, those that no variable has are as they were. -/
def Keeps (scope : Scope) (count : Nat) (locals locals' : Array (Option Value)) : Prop :=
  ∀ slot < count, scope.typeAt slot = none → locals'[slot]? = locals[slot]?

variable {scope : Scope} {env : Env} {locals locals' locals'' : Array (Option Value)}
  {name : String} {l : Local} {v : Value} {slot count count' : Nat}

theorem Stores.assign (h : scope.Stores env locals) (hs : scope.Sound)
    (hl : scope.find? name = some l) :
    scope.Stores (fun other => if other = name then some v else env other)
      (locals.setIfInBounds l.slot (some v)) where
  size := by rw [Array.size_setIfInBounds, h.size]
  holds := by
    intro other k hk
    have hslot : l.slot < locals.size := by
      rw [h.size]
      exact hs.below hl
    by_cases hother : other = name
    · subst hother
      rw [hl] at hk
      cases hk
      rw [Array.getElem?_setIfInBounds_self_of_lt hslot, if_pos rfl]
    · rw [if_neg hother, Array.getElem?_setIfInBounds_ne, h.holds hk]
      intro heq
      exact hother (hs.apart hk hl heq.symm)

theorem Stores.temporary (h : scope.Stores env locals) (hs : scope.Sound)
    (hslot : scope.typeAt slot = none) :
    scope.Stores env (locals.setIfInBounds slot (some v)) where
  size := by rw [Array.size_setIfInBounds, h.size]
  holds := by
    intro name l hl
    rw [Array.getElem?_setIfInBounds_ne, h.holds hl]
    rintro rfl
    rw [typeAt_of_find? hs hl] at hslot
    cases hslot

/-- The slots of a loop over a list, and the scope of its body. -/
theorem slots_of_each {s scope₁ scope₂ scope₃ : Scope} {items index : Nat} {item : Local}
    (itemsSlot : s.temporary? = some (items, scope₁))
    (indexSlot : scope₁.temporary? = some (index, scope₂))
    (itemSlot : scope₂.declare? name .any = some (item, scope₃)) :
    s.skip.skip.declared name .any = scope₃ ∧ items = s.slotCount ∧ items < index ∧
      index < scope₃.slotCount := by
  obtain ⟨_, rfl, rfl⟩ := temporary?_eq_some_iff.1 itemsSlot
  obtain ⟨_, rfl, rfl⟩ := temporary?_eq_some_iff.1 indexSlot
  exact ⟨declared_of_declare? itemSlot, rfl, Nat.lt_succ_self _, (extends_of_declare? itemSlot).count⟩

theorem Keeps.refl : scope.Keeps count locals locals := fun _ _ _ => rfl

theorem Keeps.mono (h : scope.Keeps count' locals locals') (hcount : count ≤ count') :
    scope.Keeps count locals locals' := fun slot hslot => h slot (Nat.lt_of_lt_of_le hslot hcount)

theorem Keeps.trans (h : scope.Keeps count locals locals')
    (h' : scope.Keeps count' locals' locals'') (hcount : count ≤ count') :
    scope.Keeps count locals locals'' := by
  intro slot hslot htype
  rw [h' slot (Nat.lt_of_lt_of_le hslot hcount) htype, h slot hslot htype]

theorem keeps_assign (hs : scope.Sound) (hl : scope.find? name = some l) :
    scope.Keeps count locals (locals.setIfInBounds l.slot (some v)) := by
  intro slot _ htype
  rw [Array.getElem?_setIfInBounds_ne]
  rintro rfl
  rw [typeAt_of_find? hs hl] at htype
  cases htype

theorem keeps_temporary (hslot : count ≤ slot) :
    scope.Keeps count locals (locals.setIfInBounds slot (some v)) := by
  intro other hother _
  rw [Array.getElem?_setIfInBounds_ne]
  omega

end Scope

namespace Site

variable (c : Site)

/-- The code has this part at an offset. -/
def Has (n : Nat) (code : Code) : Prop :=
  ∀ (k : Nat) i, code[k]? = some i → c.routine.code[n + k]? = some i

/-- The call has come to an offset with these operands, and its slots hold the variables. -/
def Arrives (count : Nat) (locals : Array (Option Value)) (n : Nat) (stack : List Value) (env : Env)
    (w : World) (t : State) : Prop :=
  ∃ locals', t = c.state n stack locals' w ∧ c.scope.Stores env locals' ∧
    c.scope.Keeps count locals locals'

variable {c} {p : Program} {β : Type} {fuel n count count' : Nat} {stack : List Value}
  {locals locals' : Array (Option Value)} {w : World} {store : Store} {env : Env} {v : Value}
  {code code' : Code} {i : Instruction} {t : State}

theorem has_code (c : Site) : c.Has 0 c.routine.code := by
  intro k i hi
  rwa [Nat.zero_add]

theorem Has.at (h : c.Has n code) (k : Nat) (hi : code[k]? = some i) :
    c.routine.code[n + k]? = some i := h k i hi

theorem Has.left (h : c.Has n (code ++ code')) : c.Has n code := by
  intro k i hi
  apply h
  rw [Array.getElem?_append_left (Array.getElem?_eq_some_iff.1 hi).1, hi]

theorem Has.right {n' : Nat} (h : c.Has n (code ++ code')) (hn : n' = n + code.size) :
    c.Has n' code' := by
  intro k i hi
  rw [hn, Nat.add_assoc]
  apply h
  rw [Array.getElem?_append_right (Nat.le_add_right _ _), Nat.add_sub_cancel_left, hi]

theorem Has.single (h : c.Has n #[i]) : c.routine.code[n]? = some i := h.at 0 rfl

theorem Has.tail {is : List Instruction} (h : c.Has n (i :: is).toArray) :
    c.Has (n + 1) is.toArray := by
  intro k j hj
  rw [Nat.add_right_comm, Nat.add_assoc]
  apply h
  simpa using hj

theorem arrives_of_stores (h : c.scope.Stores env locals) :
    c.Arrives count locals n stack env w (c.state n stack locals w) := ⟨locals, rfl, h, .refl⟩

theorem Arrives.after (h : c.Arrives count' locals' n stack env w t)
    (hkeeps : c.scope.Keeps count locals locals') (hcount : count ≤ count') :
    c.Arrives count locals n stack env w t := by
  obtain ⟨locals'', ht, hstores, hkeeps'⟩ := h
  exact ⟨locals'', ht, hstores, hkeeps.trans hkeeps' hcount⟩

/-- What a slot says of a variable. -/
theorem follows_read {name : String} {l : Local} (hs : c.scope.Sound)
    (hnames : c.routine.localNames = c.scope.slotNames) (hstores : c.scope.Stores env locals)
    (hl : c.scope.find? name = some l) (hi : c.routine.code[n]? = some (.loadLocal l.slot)) :
    p.Follows fuel (c.state n stack locals store.world) store
      (fun a w t => a.2 = env ∧ t = c.state (n + 1) (a.1 :: stack) locals w)
      (Eval.read c.routine.name name env store) := by
  have hslot := hstores.holds hl
  unfold Eval.read
  cases hv : env name with
  | some v =>
    rw [hv] at hslot
    exact follows_loadLocal hi hslot (Program.follows_ok ⟨rfl, rfl⟩)
  | none =>
    rw [hv] at hslot
    have hname : c.routine.localName l.slot = name := by
      rw [Routine.localName, hnames, Scope.slotNames_of_find? hs hl]
      rfl
    have hfree := Program.free_loadLocal_unassigned (p := p)
      (s := c.state n stack locals store.world) hi hslot
    refine ⟨1, [], ?_, (List.append_nil _).symm⟩
    rw [Program.walk_succ_finished hfree, invocation?_eq_none hi (by simp)]
    change (Progress.finished (.error (.unassigned _ (c.routine.localName l.slot))) _, _) = _
    rw [hname]
    rfl

/-- A variable is assigned in its slot. -/
theorem follows_assign {name : String} {l : Local} (hs : c.scope.Sound)
    (hstores : c.scope.Stores env locals) (hl : c.scope.find? name = some l)
    (hi : c.routine.code[n]? = some (.storeLocal l.slot)) :
    p.Follows fuel (c.state n (v :: stack) locals store.world) store
      (fun a w t => c.Arrives count locals (n + 1) stack a.2 w t)
      (Eval.assign name v env store) := by
  apply follows_storeLocal hi
  · rw [hstores.size]
    exact hs.below hl
  · exact Program.follows_ok ⟨_, rfl, hstores.assign hs hl, Scope.keeps_assign hs hl⟩

/-- A value is looked at as soon as it is there. -/
theorem follows_arrive {expected type : StaticType} (h : c.Has n (expectation expected type)) :
    p.Follows fuel (c.state n (v :: stack) locals store.world) store
      (fun a w t => a.2 = env ∧
        t = c.state (n + (expectation expected type).size) (a.1 :: stack) locals w)
      (Eval.arrive expected type v env store) := by
  unfold Eval.arrive
  unfold expectation at h ⊢
  by_cases hany : type = .any
  · simp only [if_pos hany] at h ⊢
    cases hkind : expected.runtimeKind? with
    | none => exact Program.follows_ok ⟨rfl, rfl⟩
    | some kind =>
      rw [hkind] at h
      have hi : c.routine.code[n]? = some (.expect kind) := h.single
      have hfree := Program.free_expect (p := p) (s := c.state n (v :: stack) locals store.world)
        hi rfl
      simp only
      by_cases hv : v.kind = kind
      · rw [if_pos hv] at hfree ⊢
        exact Program.follows_of_free hfree (invocation?_eq_none hi (by simp))
          (Program.follows_ok ⟨rfl, rfl⟩)
      · rw [if_neg hv] at hfree ⊢
        refine ⟨1, [], ?_, (List.append_nil _).symm⟩
        rw [Program.walk_succ_finished hfree, invocation?_eq_none hi (by simp)]
        rfl
  · simp only [if_neg hany]
    exact Program.follows_ok ⟨rfl, rfl⟩

/-- An operand is a value that has been looked at. -/
theorem follows_operand {expected type : StaticType} {x : Eval (Option Value)} {s : State}
    (h : c.Has n (expectation expected type))
    (hx : p.Follows fuel s store
      (fun a w t => a.1 ≠ none ∧ c.Arrives count locals n (a.1.toList ++ stack) a.2 w t)
      (x env store)) :
    p.Follows fuel s store
      (fun a w t => c.Arrives count locals (n + (expectation expected type).size) (a.1 :: stack)
        a.2 w t)
      (Eval.operand expected type x env store) := by
  unfold Eval.operand
  apply Eval.follows_bind (Eval.follows_value hx And.left)
  rintro v env' store' t ⟨_, locals', rfl, hstores, hkeeps⟩
  apply (follows_arrive h).imp
  rintro ⟨v', env''⟩ w t ⟨henv, rfl⟩
  simp only at henv
  rw [henv]
  exact ⟨locals', rfl, hstores, hkeeps⟩

/-- A value that nobody uses is dropped. -/
theorem follows_dropValue {arrives : β → World → State → Prop} {o} {type : StaticType}
    {v? : Option Value} (h : c.Has n (dropValue type)) (hv : v? = none ↔ type = .void)
    (hrest : p.Follows fuel (c.state (n + (dropValue type).size) stack locals w) store arrives o) :
    p.Follows fuel (c.state n (v?.toList ++ stack) locals w) store arrives o := by
  unfold dropValue at h hrest
  cases v? with
  | none =>
    rw [if_pos (hv.1 rfl)] at hrest
    exact hrest
  | some v =>
    have hvalued : type ≠ .void := fun hvoid => by cases hv.2 hvoid
    rw [if_neg hvalued] at h hrest
    exact follows_pop h.single hrest

end Site

end EventScript
