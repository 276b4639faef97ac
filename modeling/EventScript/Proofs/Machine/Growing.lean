import EventScript.Proofs.Heap.Growing
import EventScript.Proofs.Machine.Performing
import EventScript.Proofs.Registry
import EventScript.Proofs.StackDiscipline

/-!
Lists only grow during a run. No instruction takes an item from a list or puts another one in its
place, and no callback does that does to containers what can be done to them.
-/
namespace EventScript

/-- A callback that does nothing to containers but what can be done to a heap. -/
def Operation.UsesContainers (op : Operation) : Prop := ∀ call args heap, op.action = .host call →
  ∃ actions, (call args heap).2.cells = (Heap.after heap actions).cells

/-- No callback of the program takes anything from a list. -/
def Program.KeepsLists (p : Program) : Prop :=
  ∀ call ∈ p.hosts, ∀ args (heap : Heap), heap.ListsGrow (call args heap).2

namespace Machine

variable {α β : Type}

/-- Lists only grow, also if an error ends it. -/
def GrowsLists (m : Machine α) : Prop := ∀ s : State, s.world.heap.ListsGrow (m s).2.world.heap

theorem growsLists_pure (a : α) : GrowsLists (pure a) := fun _ => .refl _

theorem growsLists_throw (e : RuntimeError) : GrowsLists (throw e : Machine α) := fun _ => .refl _

theorem growsLists_get : GrowsLists (get : Machine State) := fun _ => .refl _

theorem growsLists_bind {m : Machine α} {f : α → Machine β} (hm : GrowsLists m)
    (hf : ∀ a, GrowsLists (f a)) : GrowsLists (m >>= f) := by
  intro s
  have hfirst := hm s
  rw [bind_apply]
  rcases hrun : m s with ⟨e | a, t⟩ <;> rw [hrun] at hfirst
  · exact hfirst
  · exact hfirst.trans (hf a t)

theorem growsLists_pop : GrowsLists pop := by
  intro s
  rw [pop_apply]
  cases s.frame.stack <;> exact .refl _

theorem growsLists_popMany (count : Nat) : GrowsLists (popMany count) := by
  intro s
  rw [popMany_apply]
  split <;> exact .refl _

theorem growsLists_jump (target : Nat) : GrowsLists (jump target) := fun _ => .refl _

theorem growsLists_onHeap {act : Heap → Except RuntimeError α × Heap}
    (hact : ∀ h : Heap, h.ListsGrow (act h).2) : GrowsLists (onHeap act) := by
  intro s
  rw [onHeap_apply]
  exact hact _

end Machine

theorem NativeOp.growsLists (op : NativeOp) : Machine.GrowsLists op.run :=
  fun s => (op.actedOn s).listsGrow

open Machine

namespace Program

variable {p : Program} {s s' t : State}

theorem KeepsLists.performs {α : Type} {i : Instruction} {m : Machine α} (hp : p.KeepsLists)
    (h : Performs p i m) : GrowsLists m := by
  induction h with
  | pure a => exact growsLists_pure a
  | fault | mismatch | unassigned => exact growsLists_throw _
  | get => exact growsLists_get
  | pop => exact growsLists_pop
  | popMany count => exact growsLists_popMany count
  | jump => exact growsLists_jump _
  | store => exact fun _ => .refl _
  | native op => exact op.growsLists
  | host _ known args => exact growsLists_onHeap (hp _ known args)
  | bind _ _ ih₁ ih₂ => exact growsLists_bind ih₁ ih₂

theorem KeepsLists.deliver (hp : p.KeepsLists) {i : Instruction}
    (h : Machine.deliver (p.outcome i t) = .running s') :
    t.world.heap.ListsGrow s'.world.heap := by
  have hgrows := hp.performs (p.performs i) t
  rcases ho : p.outcome i t with ⟨e | v?, u⟩ <;> rw [ho] at h hgrows
  · cases h
  · cases v? <;> cases h <;> exact hgrows

theorem world_of_answer {result : Option Value} (h : t.answer result = .running s') :
    s'.world = t.world := by
  unfold State.answer at h
  split at h
  · cases h
  · cases h
    rfl
  · cases h
    rfl
  · cases h

/-- A step keeps the items of all lists where they are. -/
theorem KeepsLists.step (hp : p.KeepsLists) (h : p.step s = .running s') :
    s.world.heap.ListsGrow s'.world.heap := by
  have hsame (h : s'.world = s.world) : s.world.heap.ListsGrow s'.world.heap := h ▸ .refl _
  obtain ⟨r, hr, h⟩ : ∃ r, s.Frees p r ∧ r = .running s' := ⟨_, p.frees s, free_eq_running h⟩
  cases hr with
  | past | empty => cases h
  | call =>
    obtain ⟨r, _, _, rfl⟩ := State.call_eq_running h
    exact .refl _
  | value | void => exact hsame (world_of_answer h)
  | outcome => exact hp.deliver (t := s.goto (s.frame.next + 1) s.frame.stack) h

/-- So does a run. -/
theorem KeepsLists.reaches (hp : p.KeepsLists) (h : p.Reaches s t) :
    s.world.heap.ListsGrow t.world.heap := by
  induction h with
  | refl => exact .refl _
  | tail _ hstep ih => exact ih.trans (hp.step hstep)

/-- Callbacks that use containers as they can be used take nothing from a list. -/
theorem Lowers.keepsLists {ctx : Context} {ds : List Definition} {pools : Pools}
    (h : p.Lowers ctx ds pools) (hosts : ctx.registry.All Operation.UsesContainers) :
    p.KeepsLists := by
  intro call hcall args heap
  obtain ⟨_, op, hop, haction⟩ := h.operation_of_mem_hosts hcall
  obtain ⟨actions, hactions⟩ := hosts.of hop call args heap haction
  intro list
  rw [Heap.items_congr hactions]
  exact heap.listsGrow_after actions list

end Program

theorem Registry.usesContainers_of_withHosts {r : Registry}
    (h : r.WithHosts Operation.UsesContainers) : r.All Operation.UsesContainers := by
  refine all_of_withHosts h (fun op hop call _ _ haction => ?_) fun _ _ _ hop => hop
  have hnative := Operation.isNative_of_mem_standard op hop
  rw [haction] at hnative
  cases hnative

end EventScript
