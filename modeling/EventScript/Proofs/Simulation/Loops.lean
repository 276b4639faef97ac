import EventScript.Proofs.Simulation.Slots

/-!
Loops. A body that follows its tree is carried out as often as the tree says: the counters are in
slots that no variable has, so nothing that the body does changes them.
-/
namespace EventScript

namespace Site

variable {c : Site} {p : Program} {fuel head stop finish count inner one : Nat}
  {stack : List Value} {locals : Array (Option Value)} {store : Store} {env : Env} {v : Value}
  {body : Eval Unit}

/-- The body is followed from one offset to another; it may leave values behind. -/
def FollowsBody (c : Site) (p : Program) (fuel start stop count : Nat) (body : Eval Unit) : Prop :=
  ∀ {stack : List Value} {locals : Array (Option Value)} {env : Env} {store : Store},
    c.scope.Stores env locals →
      p.Follows fuel (c.state start stack locals store.world) store
        (fun a w t => ∃ rest, c.Arrives count locals stop (rest ++ stack) a.2 w t) (body env store)

/-- A loop that counts down. -/
theorem follows_countdown {counter : Nat} (hs : c.scope.Sound) (hslot : counter < c.scope.slotCount)
    (hfree : c.scope.typeAt counter = none) (hone : p.constants[one]? = some (.number .one))
    (htest : c.Has head
      #[.loadLocal counter, .pushConstant one, .atLeast, .jumpIfFalse finish])
    (hnext : c.Has stop
      #[.loadLocal counter, .pushConstant one, .arithmetic .sub, .storeLocal counter, .jump head])
    (hbody : c.FollowsBody p fuel (head + 4) stop inner body) (hinner : counter < inner)
    (hcount : count ≤ counter) : ∀ {rounds : Nat}, rounds ≤ fuel → ∀ {v stack locals env store},
      c.scope.Stores env locals → locals[counter]? = some (some v) →
        p.Follows rounds (c.state head stack locals store.world) store
          (fun a w t => ∃ rest, c.Arrives count locals finish (rest ++ stack) a.2 w t)
          (Eval.countdown body rounds v env store) := by
  intro rounds
  induction rounds with
  | zero => exact fun _ _ _ _ _ _ _ _ => Program.lasts_zero p _
  | succ rounds ih =>
    intro hrounds v stack locals env store hstores hv
    unfold Eval.countdown
    apply follows_succ_loadLocal (htest.at 0 rfl) hv
    apply follows_pushConstant (htest.at 1 rfl) hone
    apply Eval.follows_bind (follows_comparison (invocation?_eq_none (htest.at 2 rfl) (by simp))
      (Program.free_atLeast (htest.at 2 rfl) rfl) (htest.at 3 rfl))
    rintro goes env' store' t ⟨rfl, rfl⟩
    cases goes with
    | false => exact Eval.follows_pure ⟨[], arrives_of_stores hstores⟩
    | true =>
      apply Eval.follows_bind (Program.follows_of_le (hbody hstores) (by omega))
      rintro _ env' store' t ⟨rest, locals', rfl, hstores', hkeeps⟩
      -- the body has left the counter alone
      have hv' : locals'[counter]? = some (some v) := by rw [hkeeps counter hinner hfree, hv]
      apply follows_loadLocal (hnext.at 0 rfl) hv'
      apply follows_pushConstant (hnext.at 1 rfl) hone
      apply Eval.follows_bind (follows_numbers id
        (invocation?_eq_none (hnext.at 2 rfl) (by simp))
        (Program.free_arithmetic (hnext.at 2 rfl) rfl))
      rintro v' env'' store'' t ⟨rfl, rfl⟩
      have hbelow : counter < locals'.size := by rwa [hstores'.size]
      apply follows_storeLocal (hnext.at 3 rfl) hbelow
      apply follows_jump (hnext.at 4 rfl)
      apply (ih (by omega) (hstores'.temporary hs hfree)
        (Array.getElem?_setIfInBounds_self_of_lt hbelow)).imp
      rintro a w t ⟨rest', h⟩
      have hkept : c.scope.Keeps count locals (locals'.setIfInBounds counter (some v')) :=
        (hkeeps.mono (by omega)).trans (Scope.keeps_temporary hcount) (Nat.le_refl count)
      exact ⟨rest' ++ rest, by rw [List.append_assoc]; exact h.after hkept (Nat.le_refl count)⟩

/-- A counting loop, from the store of the count on. -/
theorem follows_loop {counter n : Nat} (hs : c.scope.Sound)
    (hslot : counter < c.scope.slotCount ∧ c.scope.typeAt counter = none)
    (hone : p.constants[one]? = some (.number .one))
    (hcode : c.Has n #[.storeLocal counter, .loadLocal counter, .pushConstant one, .atLeast,
      .jumpIfFalse finish])
    (hnext : c.Has stop #[.loadLocal counter, .pushConstant one, .arithmetic .sub,
      .storeLocal counter, .jump (n + 1)])
    (hbody : c.FollowsBody p fuel (n + 5) stop inner body) (hinner : counter < inner)
    (hcount : count ≤ counter) (hstores : c.scope.Stores env locals) :
    p.Follows fuel (c.state n (v :: stack) locals store.world) store
      (fun a w t => ∃ rest, c.Arrives count locals finish (rest ++ stack) a.2 w t)
      (Eval.countdown body fuel v env store) := by
  obtain ⟨hbelow, hfree⟩ := hslot
  have hsize : counter < locals.size := by rwa [hstores.size]
  apply follows_storeLocal (hcode.at 0 rfl) hsize
  apply (follows_countdown hs hbelow hfree hone hcode.tail hnext hbody hinner hcount
    (Nat.le_refl fuel) (hstores.temporary hs hfree) (Array.getElem?_setIfInBounds_self_of_lt hsize)).imp
  rintro a w t ⟨rest, h⟩
  exact ⟨rest, h.after (Scope.keeps_temporary hcount) (Nat.le_refl count)⟩

/-- A loop over the items of a list. -/
theorem follows_forEach {items index : Nat} {name : String} {item : Local} (hs : c.scope.Sound)
    (hitemsFree : c.scope.typeAt items = none)
    (hindex : index < c.scope.slotCount) (hindexFree : c.scope.typeAt index = none)
    (hne : items ≠ index) (hitem : c.scope.find? name = some item)
    (hone : p.constants[one]? = some (.number .one))
    (htest : c.Has head
      #[.loadLocal index, .loadLocal items, .native .listSize, .lessThan, .jumpIfFalse finish,
        .loadLocal items, .loadLocal index, .native .listGet, .storeLocal item.slot])
    (hnext : c.Has stop
      #[.loadLocal index, .pushConstant one, .arithmetic .add, .storeLocal index, .jump head])
    (hbody : c.FollowsBody p fuel (head + 9) stop inner body) (hitemsInner : items < inner)
    (hindexInner : index < inner) (hcount : count ≤ index) :
    ∀ {rounds : Nat}, rounds ≤ fuel → ∀ {list v stack locals env store},
      c.scope.Stores env locals → locals[items]? = some (some list) →
        locals[index]? = some (some v) →
          p.Follows rounds (c.state head stack locals store.world) store
            (fun a w t => ∃ rest, c.Arrives count locals finish (rest ++ stack) a.2 w t)
            (Eval.forEach name body list rounds v env store) := by
  intro rounds
  induction rounds with
  | zero => exact fun _ _ _ _ _ _ _ _ _ _ => Program.lasts_zero p _
  | succ rounds ih =>
    intro hrounds list v stack locals env store hstores hlist hv
    unfold Eval.forEach
    apply follows_succ_loadLocal (htest.at 0 rfl) hv
    apply follows_loadLocal (htest.at 1 rfl) hlist
    apply Eval.follows_bind (follows_nativeValue [list] (htest.at 2 rfl) rfl (by decide))
    rintro size env' store' t ⟨rfl, rfl⟩
    apply Eval.follows_bind (follows_comparison (invocation?_eq_none (htest.at 3 rfl) (by simp))
      (Program.free_lessThan (htest.at 3 rfl) rfl) (htest.at 4 rfl))
    rintro goes env' store' t ⟨rfl, rfl⟩
    cases goes with
    | false => exact Eval.follows_pure ⟨[], arrives_of_stores hstores⟩
    | true =>
      apply follows_loadLocal (htest.at 5 rfl) hlist
      apply follows_loadLocal (htest.at 6 rfl) hv
      apply Eval.follows_bind (follows_nativeValue [list, v] (htest.at 7 rfl) rfl (by decide))
      rintro next env' store' t ⟨rfl, rfl⟩
      apply Eval.follows_bind (follows_assign hs hstores hitem (htest.at 8 rfl))
      rintro _ env' store' t ⟨locals', rfl, hstores', hkeeps'⟩
      apply Eval.follows_bind (Program.follows_of_le (hbody hstores') (by omega))
      rintro _ env' store' t ⟨rest, locals'', rfl, hstores'', hkeeps''⟩
      have hkeeps := hkeeps'.trans hkeeps'' (Nat.le_refl inner)
      -- neither the item nor the body has changed what the loop keeps
      have hlist' : locals''[items]? = some (some list) := by
        rw [hkeeps items hitemsInner hitemsFree, hlist]
      have hv' : locals''[index]? = some (some v) := by
        rw [hkeeps index hindexInner hindexFree, hv]
      apply follows_loadLocal (hnext.at 0 rfl) hv'
      apply follows_pushConstant (hnext.at 1 rfl) hone
      apply Eval.follows_bind (follows_numbers id
        (invocation?_eq_none (hnext.at 2 rfl) (by simp))
        (Program.free_arithmetic (hnext.at 2 rfl) rfl))
      rintro v' env'' store'' t ⟨rfl, rfl⟩
      have hbelow : index < locals''.size := by rwa [hstores''.size]
      apply follows_storeLocal (hnext.at 3 rfl) hbelow
      apply follows_jump (hnext.at 4 rfl)
      apply (ih (by omega) (hstores''.temporary hs hindexFree)
        (by rw [Array.getElem?_setIfInBounds_ne (Ne.symm hne), hlist'])
        (Array.getElem?_setIfInBounds_self_of_lt hbelow)).imp
      rintro a w t ⟨rest', h⟩
      have hkept : c.scope.Keeps count locals (locals''.setIfInBounds index (some v')) :=
        (hkeeps.mono (by omega)).trans (Scope.keeps_temporary hcount) (Nat.le_refl count)
      exact ⟨rest' ++ rest, by rw [List.append_assoc]; exact h.after hkept (Nat.le_refl count)⟩

/-- A loop over a list, from the store of the list on. -/
theorem follows_each {items index first n : Nat} {name : String} {item : Local} {list : Value}
    {E : Setting} (hs : c.scope.Sound) (hE : E.Lists items index first one name item)
    (hscope : E.scope = c.scope) (hconstants : ∀ {i : Nat} {l}, E.constants[i]? = some l →
      p.constants[i]? = some l)
    (hcode : c.Has n #[.storeLocal items, .pushConstant first, .storeLocal index, .loadLocal index,
      .loadLocal items, .native .listSize, .lessThan, .jumpIfFalse finish, .loadLocal items,
      .loadLocal index, .native .listGet, .storeLocal item.slot])
    (hnext : c.Has stop #[.loadLocal index, .pushConstant one, .arithmetic .add, .storeLocal index,
      .jump (n + 3)])
    (hbody : c.FollowsBody p fuel (n + 12) stop inner body) (hlt : items < index)
    (hinner : index < inner) (hcount : count ≤ items) (hstores : c.scope.Stores env locals) :
    p.Follows fuel (c.state n (list :: stack) locals store.world) store
      (fun a w t => ∃ rest, c.Arrives count locals finish (rest ++ stack) a.2 w t)
      (Eval.forEach name body list fuel (.number .zero) env store) := by
  obtain ⟨⟨hitems, hitemsFree⟩, ⟨hindex, hindexFree⟩, hitem, hzero, hone⟩ := hE
  rw [hscope] at hitems hitemsFree hindex hindexFree hitem
  have hne : index ≠ items := by omega
  have hindexCount : count ≤ index := by omega
  have hsize : items < locals.size := by rwa [hstores.size]
  apply follows_storeLocal (hcode.at 0 rfl) hsize
  apply follows_pushConstant (hcode.at 1 rfl) (hconstants hzero)
  have hstores' := hstores.temporary (v := list) hs hitemsFree
  have hsize' : index < (locals.setIfInBounds items (some list)).size := by rwa [hstores'.size]
  apply follows_storeLocal (hcode.at 2 rfl) hsize'
  have hlist : ((locals.setIfInBounds items (some list)).setIfInBounds index
      (some (.number .zero)))[items]? = some (some list) := by
    rw [Array.getElem?_setIfInBounds_ne hne, Array.getElem?_setIfInBounds_self_of_lt hsize]
  apply (follows_forEach hs hitemsFree hindex hindexFree hne.symm hitem (hconstants hone)
    hcode.tail.tail.tail hnext hbody (by omega) hinner hindexCount (Nat.le_refl fuel)
    (hstores'.temporary hs hindexFree) hlist (Array.getElem?_setIfInBounds_self_of_lt hsize')).imp
  rintro a w t ⟨rest, h⟩
  have hkept : c.scope.Keeps count locals ((locals.setIfInBounds items (some list)).setIfInBounds
      index (some (.number .zero))) :=
    (Scope.keeps_temporary hcount).trans (Scope.keeps_temporary hindexCount) (Nat.le_refl count)
  exact ⟨rest, h.after hkept (Nat.le_refl count)⟩

end Site

end EventScript
