import EventScript.Datum.Decoding
import EventScript.Datum.Encoding
import EventScript.Proofs.Heap.Recursion
import EventScript.Proofs.Machine.Handles
import Mathlib

/-!
Containers stay tree-shaped. Whatever is done to a heap that begins empty, and however handles are
shared meanwhile, no container comes to lie inside itself: stores are refused just where they would
close a cycle. Equality, display and encoding come to an end on every value.
-/
namespace EventScript.Heap

/-- What can be done to a heap. -/
inductive Action where
  | newList (items : Array Value)
  | push (list : Ref) (v : Value)
  | newDict (entries : Array (Value × Value))
  | insert (dict : Ref) (key value : Value)
  | newStruct (fields : Array Value)
  | newFilled (arity : Nat) (fill : Value)
  | setField (struct : Ref) (i : Nat) (v : Value)
  /-- Reads a datum and stores it. -/
  | decode (reader : Reader)
  /-- Carries out a native operation of the machine in a state of a run. -/
  | native (op : NativeOp) (s : State)

namespace Action

/-- The heap afterwards, also if the action is refused. -/
def perform (h : Heap) : Action → Heap
  | newList items => (h.newList items).2
  | push r v => (h.push r v).2
  | newDict entries => (h.newDict entries).2
  | insert r key value => (h.insert r key value).2
  | newStruct fields => (h.newStruct fields).2
  | newFilled arity fill => (h.newFilled arity fill).2
  | setField r i v => (h.setField r i v).2
  | decode reader =>
    match (Decoder.datum.run.run reader).1 with
    | .ok d => (h.store d).2
    | .error _ => h
  | native op s => (op.run { s with world.heap := h }).2.world.heap

/-- The values that an action is given. -/
def operands : Action → List Value
  | newList items => items.toList
  | push _ v => [v]
  | newDict entries => entries.toList.flatMap fun (k, v) => [k, v]
  | insert _ key value => [key, value]
  | newStruct fields => fields.toList
  | newFilled _ fill => [fill]
  | setField _ _ v => [v]
  | decode _ => []
  | native _ s => s.frame.stack

end Action

/-- The heap after some actions, one after the other. -/
def after (h : Heap) (actions : List Action) : Heap := actions.foldl Action.perform h

/-- Every action is given handles only of containers that have been made before it. -/
def Handed (h : Heap) : List Action → Prop
  | [] => True
  | action :: actions =>
    (∀ v ∈ action.operands, h.InRange v) ∧ Handed (action.perform h) actions

/-- No container lies inside itself, and recursions over what values hold come to an end: at the
latest where they are as deep as there are containers. -/
structure TreeShaped (h : Heap) : Prop where
  acyclic : h.Acyclic
  keys : ∀ r, ∀ e ∈ h.entries r, h.reaches e.1 r = false
  equality : ∀ v w, h.compare? (h.depth + 1) v w = some (h.same v w)
  display : ∀ v, (h.tree? (h.depth + 1) v).map Datum.display = some (h.display v)
  encoding : ∀ v, (h.tree? (h.depth + 1) v).map Datum.encode = some (h.datum v).encode

variable {h : Heap}

theorem Acyclic.treeShaped (ha : h.Acyclic) : h.TreeShaped where
  acyclic := ha
  keys r e he := by
    by_contra hkey
    rw [Bool.not_eq_false, reaches_iff] at hkey
    obtain ⟨s, hs, hpath⟩ := hkey
    have hheld := (mem_inside_dict (Array.mem_toList_iff.2 he)).1
    obtain ⟨_, ⟨⟩, hchild⟩ := mem_children_of_mem_inside hheld
    exact ha r (.head' ⟨e.1, hchild, hs⟩ hpath)
  equality := ha.compare?_eq
  display v := by
    rw [ha.tree?_eq]
    rfl
  encoding v := by
    rw [ha.tree?_eq]
    rfl

/-- An action goes on from a heap without cycles to one without. -/
theorem WellFormed.goesOn_perform (hh : h.WellFormed) {action : Action}
    (hgiven : ∀ v ∈ action.operands, h.InRange v) : h.GoesOn (action.perform h) := by
  cases action with
  | newList items => exact hh.goesOn_newList fun v hv => hgiven v (Array.mem_toList_iff.2 hv)
  | push r v => exact hh.goesOn_push (hgiven v (by simp [Action.operands]))
  | newDict entries =>
    exact hh.goesOn_newDict (forall_children_dict.1 hgiven)
  | insert r key value =>
    exact hh.goesOn_insert (hgiven key (by simp [Action.operands]))
      (hgiven value (by simp [Action.operands]))
  | newStruct fields => exact hh.goesOn_newStruct fun v hv => hgiven v (Array.mem_toList_iff.2 hv)
  | newFilled arity fill => exact hh.goesOn_newFilled (hgiven fill (by simp [Action.operands]))
  | setField r i v => exact hh.goesOn_setField (hgiven v (by simp [Action.operands]))
  | decode reader =>
    simp only [Action.perform]
    split
    · exact hh.goesOn_store _
    · exact hh.goesOn
  | native op s => exact (op.tidies { s with world.heap := h } ⟨hh, hgiven⟩ nofun).1

theorem WellFormed.after (hh : h.WellFormed) {actions : List Action} (hhanded : h.Handed actions) :
    (h.after actions).WellFormed := by
  induction actions generalizing h with
  | nil => exact hh
  | cons action actions ih => exact ih (hh.goesOn_perform hhanded.1).wellFormed hhanded.2

/-- After any actions, with handles shared in any way, the heap is tree-shaped. -/
theorem treeShaped_after {actions : List Action} (hhanded : Heap.empty.Handed actions) :
    (Heap.empty.after actions).TreeShaped :=
  (wellFormed_empty.after hhanded).acyclic.treeShaped

/-- A call that is about to append a dict to a list. -/
def appending (list dict : Ref) : State where
  frame.routine := ⟨"", none, [], .any, #[], 0, #[]⟩
  frame.locals := #[]
  frame.stack := [.dict dict, .list list]
  world.ids _ := default

/-- A dict gets a list as key. Then the list must not get the dict. -/
def keyed : List Action :=
  [.newList #[], .newDict #[], .insert 1 (.list 0) (.number .one),
    .native .listAppend (appending 0 1)]

theorem treeShaped_after_keyed : Heap.empty.Handed keyed ∧
    (Heap.empty.after keyed).TreeShaped ∧ (Heap.empty.after keyed).items 0 = #[] := by
  have hhanded : Heap.empty.Handed keyed := by
    simp only [keyed, appending, Handed, Action.operands, InRange, List.forall_mem_cons]
    refine ⟨?_, ?_, ⟨?_, ?_, ?_⟩, ⟨?_, ?_, ?_⟩, trivial⟩
    all_goals rintro _ ⟨⟩
    all_goals cbv
  refine ⟨hhanded, treeShaped_after hhanded, ?_⟩
  cbv

end EventScript.Heap
