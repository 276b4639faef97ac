import EventScript.Proofs.Heap.Changing
import EventScript.Proofs.Heap.Sameness
import Mathlib.Data.List.Find

/-!
Equality and writing out as recursions that nothing bounds but their fuel. In a heap without cycles
they come to an end on all values, and their answers are those of the heap.
-/
namespace EventScript

theorem mapM_eq_some {α β : Type} {f : α → Option β} {g : α → β} {as : List α}
    (h : ∀ a ∈ as, f a = some (g a)) : as.mapM f = some (as.map g) := by
  induction as with
  | nil => rfl
  | cons a as ih =>
    have h := List.forall_mem_cons.1 h
    rw [List.mapM_cons, h.1, ih h.2]
    rfl

namespace Heap

variable {h : Heap} {v w : Value} {n : Nat}

/-- One level of equality, by the equality of what is inside. -/
def sameBy (h : Heap) (eq : Value → Value → Bool) : Value → Value → Bool
  | .list r, .list s => (h.items r).isEqv (h.items s) eq
  | .dict r, .dict s => sameEntries eq (h.entries r) (h.entries s)
  | .struct r, .struct s => (h.fields r).isEqv (h.fields s) eq
  | _, _ => false

/-- What either of two values holds. -/
def held (h : Heap) (v w : Value) : List Value := h.inside v ++ h.inside w

/-- Equality without a bound: `none` if calls lie deeper in one another than the fuel goes. It asks
about any two values that the two of them hold, as a dict does with its own keys. -/
def compare? (h : Heap) : (fuel : Nat) → Value → Value → Option Bool
  | 0, _, _ => none
  | fuel + 1, v, w =>
    if v = w then some true
    else if (h.held v w).all fun x => (h.held v w).all fun y => (compare? h fuel x y).isSome then
      some (h.sameBy (fun x y => (compare? h fuel x y).getD false) v w)
    else none

/-- A value written out without a bound: `none` if containers lie deeper in one another than the
fuel goes. -/
def tree? (h : Heap) : (fuel : Nat) → Value → Option Datum
  | 0, _ => none
  | fuel + 1, .list r => ((h.items r).toList.mapM (tree? h fuel)).map .list
  | fuel + 1, .dict r =>
    ((h.entries r).toList.mapM fun (k, v) =>
      return (← tree? h fuel k, ← tree? h fuel v)).map .dict
  | fuel + 1, .struct r => ((h.fields r).toList.mapM (tree? h fuel)).map .struct
  | _ + 1, v => some (h.datumTo 0 v)

theorem sameTo_succ (h : Heap) (n : Nat) (v w : Value) :
    h.sameTo (n + 1) v w = (v = w || h.sameBy (h.sameTo n) v w) := by
  cases v <;> cases w <;> rfl

/-! ### Equality by what is inside -/

section

variable {eq eq' : Value → Value → Bool} {P : Value → Prop} {es fs : Array (Value × Value)}

theorem putEntry_congr {k v : Value} (hk : ∀ e ∈ es, eq e.1 k = eq' e.1 k) :
    putEntry eq es k v = putEntry eq' es k v := by
  have hfind : es.findIdx? (fun e => eq e.1 k) = es.findIdx? fun e => eq' e.1 k := by
    obtain ⟨es⟩ := es
    have hk : ∀ e ∈ es, eq e.1 k = eq' e.1 k := fun e he => hk e (by simpa using he)
    rw [List.findIdx?_toArray, List.findIdx?_toArray]
    induction es with
    | nil => rfl
    | cons e es ih =>
      have hk := List.forall_mem_cons.1 hk
      rw [List.findIdx?_cons, List.findIdx?_cons, hk.1, ih fun e he => hk.2 e (by simpa using he)]
      exact hk.2
  rw [putEntry, putEntry, hfind]

theorem putEntries_congr (heq : ∀ x, P x → ∀ y, P y → eq x y = eq' x y)
    (hes : ∀ e ∈ es, P e.1 ∧ P e.2) : putEntries eq es = putEntries eq' es := by
  obtain ⟨es⟩ := es
  have hes : ∀ e ∈ es, P e.1 ∧ P e.2 := fun e he => hes e (by simpa using he)
  -- The entries put so far satisfy `P` too.
  have hfold (es : List (Value × Value)) (hes : ∀ e ∈ es, P e.1 ∧ P e.2)
      (put : Array (Value × Value)) (hput : ∀ e ∈ put, P e.1 ∧ P e.2) :
      es.foldl (fun put e => putEntry eq put e.1 e.2) put =
        es.foldl (fun put e => putEntry eq' put e.1 e.2) put := by
    induction es generalizing put with
    | nil => rfl
    | cons e es ih =>
      have hes := List.forall_mem_cons.1 hes
      rw [List.foldl_cons, List.foldl_cons,
        putEntry_congr fun d hd => heq _ (hput d hd).1 _ hes.1.1]
      exact ih hes.2 _ (forall_putEntry hput hes.1.1 hes.1.2)
  simpa [putEntries] using hfold es hes #[] (by simp)

theorem sameEntries_congr (heq : ∀ x, P x → ∀ y, P y → eq x y = eq' x y)
    (hes : ∀ e ∈ es, P e.1 ∧ P e.2) (hfs : ∀ f ∈ fs, P f.1 ∧ P f.2) :
    sameEntries eq es fs = sameEntries eq' es fs := by
  have hes' : ∀ e ∈ putEntries eq' es, P e.1 ∧ P e.2 := forall_putEntries hes
  have hfs' : ∀ f ∈ putEntries eq' fs, P f.1 ∧ P f.2 := forall_putEntries hfs
  rw [sameEntries_eq, sameEntries_eq, putEntries_congr heq hes, putEntries_congr heq hfs]
  congr 1
  rw [← Array.all_toList, ← Array.all_toList, Bool.eq_iff_iff, List.all_eq_true, List.all_eq_true]
  refine forall₂_congr fun e he => Bool.eq_iff_iff.1 ?_
  have he := hes' e (Array.mem_toList_iff.1 he)
  have hfind : (putEntries eq' fs).find? (fun f => eq f.1 e.1) =
      (putEntries eq' fs).find? fun f => eq' f.1 e.1 := by
    rw [← Array.find?_toList, ← Array.find?_toList]
    exact List.find?_congr fun f hf => heq _ (hfs' f (Array.mem_toList_iff.1 hf)).1 _ he.1
  rw [hfind]
  cases hfound : (putEntries eq' fs).find? fun f => eq' f.1 e.1 with
  | none => rfl
  | some f => exact heq _ he.2 _ (hfs' f (Array.mem_of_find?_eq_some hfound)).2

theorem isEqv_congr {xs ys : Array Value} (heq : ∀ x ∈ xs, ∀ y ∈ ys, eq x y = eq' x y) :
    xs.isEqv ys eq = xs.isEqv ys eq' := by
  rw [Bool.eq_iff_iff, isEqv_eq_true_iff, isEqv_eq_true_iff]
  constructor
  · exact fun h => forall₂_imp_of_mem h fun x hx y hy hxy => by
      rwa [← heq x (by simpa using hx) y (by simpa using hy)]
  · exact fun h => forall₂_imp_of_mem h fun x hx y hy hxy => by
      rwa [heq x (by simpa using hx) y (by simpa using hy)]

/-- Equality looks at nothing but what the two values hold. -/
theorem sameBy_congr (heq : ∀ x ∈ h.held v w, ∀ y ∈ h.held v w, eq x y = eq' x y) :
    h.sameBy eq v w = h.sameBy eq' v w := by
  have hleft : ∀ x ∈ h.inside v, x ∈ h.held v w := fun _ => List.mem_append_left _
  have hright : ∀ x ∈ h.inside w, x ∈ h.held v w := fun _ => List.mem_append_right _
  cases v with
  | list r =>
    cases w with
    | list s =>
      exact isEqv_congr fun x hx y hy => heq x (hleft x (Array.mem_toList_iff.2 hx)) y
        (hright y (Array.mem_toList_iff.2 hy))
    | _ => rfl
  | dict r =>
    cases w with
    | dict s =>
      refine sameEntries_congr heq (fun e he => ?_) fun f hf => ?_
      · have he := mem_inside_dict (Array.mem_toList_iff.2 he)
        exact ⟨hleft _ he.1, hleft _ he.2⟩
      · have hf := mem_inside_dict (Array.mem_toList_iff.2 hf)
        exact ⟨hright _ hf.1, hright _ hf.2⟩
    | _ => rfl
  | struct r =>
    cases w with
    | struct s =>
      exact isEqv_congr fun x hx y hy => heq x (hleft x (Array.mem_toList_iff.2 hx)) y
        (hright y (Array.mem_toList_iff.2 hy))
    | _ => rfl
  | _ => rfl

end

/-! ### Where the recursions end -/

theorem sameBy_eq_false {eq : Value → Value → Bool} (hv : v.ref? = none) :
    h.sameBy eq v w = false := by
  cases v <;> first | rfl | cases hv

theorem FitsIn.compare?_eq (hv : h.FitsIn n v) (hw : h.FitsIn n w) :
    h.compare? (n + 1) v w = some (h.sameTo n v w) := by
  induction n generalizing v w with
  | zero =>
    have hheld : h.held v w = [] := by
      rw [held, inside_of_ref?_eq_none hv, inside_of_ref?_eq_none hw, List.append_nil]
    rw [compare?, hheld, sameTo, sameBy_eq_false hv]
    by_cases hvw : v = w <;> simp [hvw]
  | succ n ih =>
    have hfits : ∀ x ∈ h.held v w, h.FitsIn n x := fun x hx =>
      (List.mem_append.1 hx).elim (hv x) (hw x)
    have hasked : ∀ x ∈ h.held v w, ∀ y ∈ h.held v w,
        h.compare? (n + 1) x y = some (h.sameTo n x y) :=
      fun x hx y hy => ih (hfits x hx) (hfits y hy)
    have hall : ((h.held v w).all fun x => (h.held v w).all fun y =>
        (h.compare? (n + 1) x y).isSome) = true := by
      refine List.all_eq_true.2 fun x hx => List.all_eq_true.2 fun y hy => ?_
      rw [hasked x hx y hy, Option.isSome_some]
    have hsame : h.sameBy (fun x y => (h.compare? (n + 1) x y).getD false) v w =
        h.sameBy (h.sameTo n) v w :=
      sameBy_congr fun x hx y hy => by rw [hasked x hx y hy, Option.getD_some]
    rw [compare?, sameTo_succ, hall, hsame]
    by_cases hvw : v = w <;> simp [hvw]

theorem FitsIn.tree?_eq (hv : h.FitsIn n v) : h.tree? (n + 1) v = some (h.datumTo n v) := by
  induction n generalizing v with
  | zero => cases v <;> first | rfl | cases hv
  | succ n ih =>
    cases v with
    | list r =>
      rw [tree?, mapM_eq_some fun w hw => ih (hv w (mem_inside_list hw))]
      rfl
    | struct r =>
      rw [tree?, mapM_eq_some fun w hw => ih (hv w (mem_inside_struct hw))]
      rfl
    | dict r =>
      have hentries : ∀ e ∈ (h.entries r).toList,
          (do return (← h.tree? (n + 1) e.1, ← h.tree? (n + 1) e.2) : Option (Datum × Datum)) =
            some (h.datumTo n e.1, h.datumTo n e.2) := fun e he => by
        have he := mem_inside_dict he
        rw [ih (hv _ he.1), ih (hv _ he.2)]
        rfl
      rw [tree?, mapM_eq_some hentries]
      rfl
    | _ => rfl

/-- Without cycles equality comes to an end. -/
theorem Acyclic.compare?_eq (ha : h.Acyclic) (v w : Value) :
    h.compare? (h.depth + 1) v w = some (h.same v w) :=
  (ha.fitsIn v).compare?_eq (ha.fitsIn w)

/-- Without cycles writing out comes to an end. -/
theorem Acyclic.tree?_eq (ha : h.Acyclic) (v : Value) :
    h.tree? (h.depth + 1) v = some (h.datum v) := (ha.fitsIn v).tree?_eq

end Heap

end EventScript
