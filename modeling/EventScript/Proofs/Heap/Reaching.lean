import EventScript.Proofs.Heap.Containment

/-!
What the search for a container finds. It answers whether the container is the value's own or lies
somewhere inside it, in every heap, also in one with cycles.
-/
namespace EventScript.Heap

open Relation

variable {h : Heap} {target r s : Ref} {v : Value} {seen : Std.HashSet Ref} {pending : List Value}

/-- The container is the value's own or lies somewhere inside it. -/
def Leads (h : Heap) (v : Value) (target : Ref) : Prop :=
  ∃ r, v.ref? = some r ∧ ReflTransGen h.Contains r target

theorem Leads.of_child (hv : v.ref? = some r) {w : Value} (hw : w ∈ h.children r)
    (hlead : h.Leads w target) : h.Leads v target := by
  obtain ⟨s, hs, hpath⟩ := hlead
  exact ⟨r, hv, .head ⟨w, hw, hs⟩ hpath⟩

/-- A container without a place in the heap leads to itself only. -/
theorem eq_of_path_of_not_lt (hr : ¬r < h.cells.size) (hpath : ReflTransGen h.Contains r target) :
    r = target := by
  rcases hpath.cases_head with heq | ⟨s, ⟨w, hw, _⟩, _⟩
  · exact heq
  · exact absurd (lt_size_of_mem_children hw) hr

/-- What a search finds, one of the pending values leads to. -/
theorem exists_leads_of_reachesFrom (hfound : h.reachesFrom target seen pending = true) :
    ∃ v ∈ pending, h.Leads v target := by
  fun_induction reachesFrom h target seen pending with
  | case1 => cases hfound
  | case2 seen v pending hv ih =>
    obtain ⟨w, hw, hlead⟩ := ih hfound
    exact ⟨w, List.mem_cons_of_mem _ hw, hlead⟩
  | case3 seen v pending hv => exact ⟨v, List.mem_cons_self, target, hv, .refl⟩
  | case4 seen v pending r hv _ _ ih =>
    obtain ⟨w, hw, hlead⟩ := ih hfound
    rcases List.mem_append.1 hw with hw | hw
    · exact ⟨v, List.mem_cons_self, .of_child hv hw hlead⟩
    · exact ⟨w, List.mem_cons_of_mem _ hw, hlead⟩
  | case5 seen v pending r hv _ _ ih =>
    obtain ⟨w, hw, hlead⟩ := ih hfound
    exact ⟨w, List.mem_cons_of_mem _ hw, hlead⟩

/-- The target has not been seen, and what a seen container holds has been seen or is pending,
unless it has no place in the heap. -/
structure Searching (h : Heap) (target : Ref) (seen : Std.HashSet Ref) (pending : List Value) :
    Prop where
  fresh : target ∉ seen
  held : ∀ r ∈ seen, ∀ s, h.Contains r s →
    s ∈ seen ∨ (∃ v ∈ pending, v.ref? = some s) ∨ s ≠ target ∧ ¬s < h.cells.size

theorem searching_empty (h : Heap) (target : Ref) (pending : List Value) :
    h.Searching target ∅ pending where
  fresh := Std.HashSet.not_mem_empty
  held _ hr := absurd hr Std.HashSet.not_mem_empty

namespace Searching

/-- A pending value is passed over if its container has been seen or has no place. -/
theorem pass (hs : h.Searching target seen (v :: pending))
    (hv : ∀ r, v.ref? = some r → r ∈ seen ∨ r ≠ target ∧ ¬r < h.cells.size) :
    h.Searching target seen pending where
  fresh := hs.fresh
  held r hr s hrs := by
    rcases hs.held r hr s hrs with hseen | ⟨w, hw, hws⟩ | hout
    · exact .inl hseen
    · rcases List.mem_cons.1 hw with rfl | hw
      · exact (hv s hws).imp_right .inr
      · exact .inr (.inl ⟨w, hw, hws⟩)
    · exact .inr (.inr hout)

/-- A pending container is seen, and what it holds is pending instead. -/
theorem visit (hs : h.Searching target seen (v :: pending)) (hv : v.ref? = some r)
    (hr : r ≠ target) : h.Searching target (seen.insert r) (h.children r ++ pending) where
  fresh hmem := (Std.HashSet.mem_insert.1 hmem).elim (fun heq => hr (by simpa using heq)) hs.fresh
  held t ht u htu := by
    rcases Std.HashSet.mem_insert.1 ht with heq | ht
    · cases (show r = t by simpa using heq)
      obtain ⟨w, hw, hwu⟩ := htu
      exact .inr (.inl ⟨w, List.mem_append_left _ hw, hwu⟩)
    · rcases hs.held t ht u htu with hseen | ⟨w, hw, hwu⟩ | hout
      · exact .inl (Std.HashSet.mem_insert.2 (.inr hseen))
      · rcases List.mem_cons.1 hw with rfl | hw
        · cases hv.symm.trans hwu
          exact .inl Std.HashSet.mem_insert_self
        · exact .inr (.inl ⟨w, List.mem_append_right _ hw, hwu⟩)
      · exact .inr (.inr hout)

/-- Where nothing is pending, nothing seen leads to the target. -/
theorem not_path (hs : h.Searching target seen []) (hr : r ∈ seen) :
    ¬ReflTransGen h.Contains r target := by
  intro hpath
  induction hpath using ReflTransGen.head_induction_on with
  | refl => exact hs.fresh hr
  | head hrs hpath ih =>
    rcases hs.held _ hr _ hrs with hseen | ⟨w, hw, _⟩ | ⟨hne, hout⟩
    · exact ih hseen
    · cases hw
    · exact hne (eq_of_path_of_not_lt hout hpath)

end Searching

/-- A search that finds nothing has seen all that there is: nothing seen and nothing pending leads
to the target. -/
theorem not_leads_of_reachesFrom (hs : h.Searching target seen pending)
    (hfound : h.reachesFrom target seen pending = false) :
    (∀ r ∈ seen, ¬ReflTransGen h.Contains r target) ∧ ∀ v ∈ pending, ¬h.Leads v target := by
  fun_induction reachesFrom h target seen pending with
  | case1 seen => exact ⟨fun r hr => hs.not_path hr, nofun⟩
  | case2 seen v pending hv ih =>
    obtain ⟨hseen, hpending⟩ := ih (hs.pass fun r hr => by cases hv.symm.trans hr) hfound
    refine ⟨hseen, List.forall_mem_cons.2 ⟨?_, hpending⟩⟩
    rintro ⟨r, hr, _⟩
    cases hv.symm.trans hr
  | case3 => cases hfound
  | case4 seen v pending r hv hne _ ih =>
    obtain ⟨hseen, hpending⟩ := ih (hs.visit hv hne) hfound
    refine ⟨fun t ht => hseen t (Std.HashSet.mem_insert.2 (.inr ht)), ?_⟩
    refine List.forall_mem_cons.2 ⟨?_, fun w hw => hpending w (List.mem_append_right _ hw)⟩
    rintro ⟨t, ht, hpath⟩
    cases hv.symm.trans ht
    exact hseen r Std.HashSet.mem_insert_self hpath
  | case5 seen v pending r hv hne hold ih =>
    have hpassed : r ∈ seen ∨ r ≠ target ∧ ¬r < h.cells.size := by
      by_cases hr : r ∈ seen
      · exact .inl hr
      · exact .inr ⟨hne, fun hlt => hold ⟨hlt, by simpa using hr⟩⟩
    obtain ⟨hseen, hpending⟩ := ih (hs.pass fun t ht => by cases hv.symm.trans ht; exact hpassed)
      hfound
    refine ⟨hseen, List.forall_mem_cons.2 ⟨?_, hpending⟩⟩
    rintro ⟨t, ht, hpath⟩
    cases hv.symm.trans ht
    rcases hpassed with hr | ⟨_, hout⟩
    · exact hseen r hr hpath
    · exact hne (eq_of_path_of_not_lt hout hpath)

/-- The search finds a container just where it lies. -/
theorem reaches_iff : h.reaches v target = true ↔ h.Leads v target := by
  constructor
  · intro hfound
    obtain ⟨w, hw, hlead⟩ := exists_leads_of_reachesFrom hfound
    cases List.mem_singleton.1 hw
    exact hlead
  · intro hlead
    by_contra hfound
    rw [Bool.not_eq_true] at hfound
    exact (not_leads_of_reachesFrom (searching_empty h target [v]) hfound).2 v
      List.mem_cons_self hlead

theorem not_leads_of_reaches (hfound : h.reaches v target = false) : ¬h.Leads v target := by
  rw [← reaches_iff, hfound]
  exact Bool.false_ne_true

end EventScript.Heap
