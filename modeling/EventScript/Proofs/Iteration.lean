import EventScript.Proofs.FreeRuns
import EventScript.Proofs.Lowering.Derived
import EventScript.Proofs.Lowering.Parts
import EventScript.Proofs.Machine.Growing
import EventScript.Proofs.Number.Whole

/-!
Which items of a list a loop visits. The list and the position are kept in slots that the body
cannot change, and the list only grows, so every item has its round, also one that the body
appends.
-/
namespace EventScript

/-- While the loop lasts, all positions of the list can be counted exactly. -/
def Loop.KeepsShort (c : Loop) (p : Program) (s : State) (list : Ref) : Prop :=
  ∀ l t, p.Passes s l t → c.Lasts l → (t.world.heap.items list).size < 2 ^ 53

namespace Program

variable {p : Program} {test last items index item i : Nat} {s t u : State} {list : Ref} {v : Value}
  {stack : List Value}

/-- The loop over the list is at a position. -/
structure Listed (s : State) (items index : Nat) (list : Ref) (i : Nat) (t : State) : Prop where
  continues : s.Continues t
  items : t.frame.locals[items]? = some (some (.list list))
  index : t.frame.locals[index]? = some (some (.number (.ofNat i)))

namespace Listed

theorem goto (h : Listed s items index list i t) (next : Nat) (stack : List Value) :
    Listed s items index list i (t.goto next stack) := ⟨h.continues.goto .., h.items, h.index⟩

/-- A slot that is neither for the list nor for the position may be stored. -/
theorem store (h : Listed s items index list i t) {slot : Nat} (hitems : slot ≠ items)
    (hindex : slot ≠ index) (v : Value) : Listed s items index list i (t.store slot v) where
  continues := h.continues.store ..
  items := (State.locals_store_of_ne hitems).trans h.items
  index := (State.locals_store_of_ne hindex).trans h.index

end Listed

namespace Listing

/-! What the code around the body does, from one state to another. -/

section

variable (h : p.Listing t.frame.routine test last items index item)

include h

theorem traverses_begin (hnext : t.frame.next = test) (hstack : t.frame.stack = .list list :: stack)
    (hitems : items < t.frame.locals.size) (hindex : index < t.frame.locals.size) :
    p.Traverses test (test + 3) t
      (((t.store items (.list list)).store index (.number (.ofNat 0))).goto (test + 3) stack) := by
  obtain ⟨_, _, _, first, _, hfirst, _, hhead, _⟩ := h
  apply traverses_of_goto hnext hstack
  apply traverses_storeLocal (Nat.le_refl _) (by omega) (hhead.get 0 rfl) hitems
  apply traverses_pushConstant (s := t.store _ _) (by omega) (by omega) (hhead.get 1 rfl) hfirst
  apply traverses_storeLocal (s := t.store _ _) (by omega) (by omega) (hhead.get 2 rfl)
    (by rwa [State.size_store])
  exact traverses_refl _ _ _ _

/-- The position is compared with the size that the list has now. -/
theorem traverses_compare (hnext : t.frame.next = test + 3)
    (hlisted : Listed s items index list i t) (hi : i ≤ (t.world.heap.items list).size)
    (hshort : (t.world.heap.items list).size < 2 ^ 53)
    (hgoes : p.Traverses (test + 3) (test + 12) (t.goto
      (if i < (t.world.heap.items list).size then test + 8 else last + 5) t.frame.stack) u) :
    p.Traverses (test + 3) (test + 12) t u := by
  obtain ⟨_, _, _, _, _, _, _, hhead, _⟩ := h
  apply traverses_of_goto hnext rfl
  apply traverses_loadLocal (Nat.le_refl _) (by omega) (hhead.get 3 rfl) hlisted.index
  apply traverses_loadLocal (by omega) (by omega) (hhead.get 4 rfl) hlisted.items
  apply traverses_listSize (by omega) (by omega) (hhead.get 5 rfl)
  apply traverses_lessThan (by omega) (by omega) (hhead.get 6 rfl)
  apply traverses_jumpIfFalse (by omega) (by omega) (hhead.get 7 rfl)
  rw [Number.below_ofNat (by omega) hshort]
  simpa only [decide_eq_true_eq] using hgoes

/-- The item at the position is stored. -/
theorem traverses_read (hlisted : Listed s items index list i t)
    (hitem : item < t.frame.locals.size) (hi : i < 2 ^ 53)
    (hv : (t.world.heap.items list)[i]? = some v) :
    p.Traverses (test + 3) (test + 12) (t.goto (test + 8) stack)
      ((t.store item v).goto (test + 12) stack) := by
  obtain ⟨_, _, _, _, _, _, _, hhead, _⟩ := h
  apply traverses_loadLocal (by omega) (by omega) (hhead.get 8 rfl) hlisted.items
  apply traverses_loadLocal (by omega) (by omega) (hhead.get 9 rfl) hlisted.index
  apply traverses_listGet (by omega) (by omega) (hhead.get 10 rfl) (by rwa [Number.index?_ofNat hi])
  apply traverses_storeLocal (by omega) (by omega) (hhead.get 11 rfl) hitem
  exact traverses_refl _ _ _ _

/-- Behind the body the position comes first. -/
theorem free_last (hnext : t.frame.next = last) {x : Value}
    (hindex : t.frame.locals[index]? = some (some x)) :
    p.free t = .running (t.goto (last + 1) (x :: t.frame.stack)) := by
  obtain ⟨_, _, _, _, _, _, _, _, htail⟩ := h
  have hi : t.instruction? = some (.loadLocal index) := by
    rw [State.instruction?, hnext]
    exact htail.get 0 rfl
  rw [free_loadLocal hi hindex, hnext]

/-- Then it comes on by one. -/
theorem traverses_next (hindex : index < t.frame.locals.size) (hi : i + 1 < 2 ^ 53) :
    p.Traverses (last + 1) (last + 5) (t.goto (last + 1) (.number (.ofNat i) :: stack))
      ((t.store index (.number (.ofNat (i + 1)))).goto (test + 3) stack) := by
  obtain ⟨_, _, _, _, one, _, hone, _, htail⟩ := h
  apply traverses_pushConstant (Nat.le_refl _) (by omega) (htail.get 1 rfl) hone
  apply traverses_arithmetic (by omega) (by omega) (htail.get 2 rfl)
  apply traverses_storeLocal (by omega) (by omega) (htail.get 3 rfl) hindex
  apply traverses_jump (s := t.store _ _) (by omega) (by omega) (htail.get 4 rfl)
  have hsum : Arithmetic.add.apply (.ofNat i) .one = .ofNat (i + 1) := by
    rw [← Number.ofNat_one]
    exact Number.add_ofNat hi
  rw [← hsum]
  exact traverses_refl _ _ _ _

end

/-- After every round the position comes on by one, and the body begins with the item there as long
as the list has one. -/
theorem turns (hloop : p.Listing s.frame.routine test last items index item)
    (hsize : s.frame.locals.size = s.frame.routine.localCount) (hnext : s.frame.next = test)
    (hstack : s.frame.stack = .list list :: stack) (hs : p.RunsFreely s) (hp : p.KeepsLists)
    (hshort : Loop.KeepsShort ⟨s.callers.length, test + 12, last, last + 5⟩ p s list) :
    Loop.Turns ⟨s.callers.length, test + 12, last, last + 5⟩ p s
      (fun i t => t.frame.next = test + 3 ∧ Listed s items index list i t ∧
        i ≤ (t.world.heap.items list).size)
      (fun i t => Listed s items index list i t ∧ i + 1 < 2 ^ 53 ∧
        ∃ v, (t.world.heap.items list)[i]? = some v ∧ t.frame.locals[item]? = some (some v))
      (fun i t => Listed s items index list i t ∧ i = (t.world.heap.items list).size) := by
  obtain ⟨hitems, hindex, hitem⟩ := hloop.slots
  obtain ⟨hapart, hitem₁, hitem₂⟩ := hloop.apart
  have hle := hloop.body.le
  rw [← hsize] at hitems hindex hitem
  refine ⟨?_, ?_, ?_⟩
  · obtain ⟨l, hl, hlasts, hrounds⟩ := (hloop.traverses_begin hnext hstack hitems hindex).apart
      (c := ⟨s.callers.length, test + 12, last, last + 5⟩) hs (.inr (by simp))
      (.inr (by simp; omega))
    refine ⟨l, _, hl, hlasts, hrounds, rfl, ⟨?_, ?_, ?_⟩, Nat.zero_le _⟩
    · exact (((State.Continues.refl s).store ..).store ..).goto ..
    · exact (State.locals_store_of_ne hapart.symm).trans (State.locals_store_self hitems)
    · exact State.locals_store_self (by rwa [State.size_store])
  · intro i l t hl hlasts _ ⟨hnext, hlisted, hi⟩
    have hbelow := hshort l t hl hlasts
    have hhere : p.Listing t.frame.routine test last items index item :=
      hlisted.continues.routine ▸ hloop
    have hheight : t.callers.length = s.callers.length := by rw [hlisted.continues.callers]
    have hcompares {u : State} := hhere.traverses_compare (u := u) hnext hlisted hi hbelow
    have hpasses {u : State} (h : p.Traverses (test + 3) (test + 12) t u) := h.apart
      (c := ⟨s.callers.length, test + 12, last, last + 5⟩) (hs.of_reaches hl.reaches)
      (.inr (by simp)) (.inr (by simp; omega))
    by_cases hlt : i < (t.world.heap.items list).size
    · rw [if_pos hlt] at hcompares
      obtain ⟨v, hv⟩ : ∃ v, (t.world.heap.items list)[i]? = some v :=
        ⟨_, Array.getElem?_eq_getElem hlt⟩
      have hslot : item < t.frame.locals.size := by rwa [hlisted.continues.size]
      obtain ⟨m, hm, hlasts', hrounds⟩ :=
        hpasses (hcompares (hhere.traverses_read hlisted hslot (by omega) hv))
      exact ⟨m, _, hm, hlasts', hrounds, .inl ⟨⟨hheight, rfl⟩,
        (hlisted.store hitem₁ hitem₂ v).goto .., by omega, v, hv, State.locals_store_self hslot⟩⟩
    · rw [if_neg hlt] at hcompares
      obtain ⟨m, hm, hlasts', hrounds⟩ := hpasses (hcompares (traverses_refl _ _ _ _))
      exact ⟨m, _, hm, hlasts', hrounds, .inr ⟨⟨hheight, rfl⟩, hlisted.goto ..,
        Nat.le_antisymm hi (Nat.le_of_not_lt hlt)⟩⟩
  · intro i t m u hreaches hat ⟨hlisted, hbelow, v, hv, _⟩ hpasses hu
    have hhere : p.Listing t.frame.routine test last items index item :=
      hlisted.continues.routine ▸ hloop
    refine Loop.comes_round (hs.of_reaches hreaches) hhere.body (by simp) hat hpasses hu ?_
    intro w hcallers hnext hstays hon
    have hthere : p.Listing w.frame.routine test last items index item := hstays.routine ▸ hhere
    have hcontinues := hlisted.continues.of_staysIn hcallers hstays
    have hlist := (hstays.kept items (.inl rfl)).trans hlisted.items
    have hposition := (hstays.kept index (.inr rfl)).trans hlisted.index
    have hslot : index < w.frame.locals.size := by rwa [hcontinues.size]
    refine ⟨_, _, hthere.free_last hnext hposition, hthere.traverses_next hslot hbelow, rfl,
      ⟨(hcontinues.store ..).goto .., ?_, ?_⟩, ?_⟩
    · exact (State.locals_store_of_ne hapart.symm).trans hlist
    · exact State.locals_store_self hslot
    · exact (Array.getElem?_eq_some_iff.1 ((hp.reaches hon).getElem?_eq hv)).1

end Listing

end Program

/-- How a loop goes on that begins in a state with a list and stores the items in a slot. As long as
bodies come to their end, round `i` begins with the item that the list has there at that moment, the
loop is over just where the list has no more items, and nothing that the loop does itself stops the
run. What is once in the list stays there. -/
structure Loop.GoesThrough (c : Loop) (p : Program) (s : State) (list : Ref) (item : Nat) :
    Prop where
  visits : ∀ {l t}, p.Passes s l t → c.Lasts l → c.Completes p s (c.rounds l) →
    t.IsAt c.height c.first → s.Continues t ∧
      ∃ v, (t.world.heap.items list)[c.rounds l]? = some v ∧ t.frame.locals[item]? = some (some v)
  ends : ∀ {l t}, p.Passes s l t → c.Lasts l → c.Completes p s (c.rounds l) →
    t.IsAt c.height c.finish → s.Continues t ∧ c.rounds l = (t.world.heap.items list).size
  goesOn : ∀ {l t}, p.Passes s l t → c.Lasts l → c.Completes p s (c.rounds l) →
    ¬t.IsAt c.height c.first → ¬t.IsAt c.height c.finish → ∃ t', p.step t = .running t'
  comes : ∀ n, c.Completes p s n → ∃ l t, p.Passes s l t ∧ c.Lasts l ∧
    (c.rounds l = n ∧ t.IsAt c.height c.first ∨ c.rounds l ≤ n ∧ t.IsAt c.height c.finish)
  grows : ∀ {t u}, p.Reaches s t → p.Reaches t u →
    ∃ more, u.world.heap.items list = t.world.heap.items list ++ more

theorem Program.Listing.goesThrough {p : Program} {test last items index item : Nat} {s : State}
    {list : Ref} {stack : List Value}
    (hloop : p.Listing s.frame.routine test last items index item)
    (hsize : s.frame.locals.size = s.frame.routine.localCount) (hnext : s.frame.next = test)
    (hstack : s.frame.stack = .list list :: stack) (hs : p.RunsFreely s) (hp : p.KeepsLists)
    (hshort : Loop.KeepsShort ⟨s.callers.length, test + 12, last, last + 5⟩ p s list) :
    Loop.GoesThrough ⟨s.callers.length, test + 12, last, last + 5⟩ p s list item := by
  have hturns := hloop.turns hsize hnext hstack hs hp hshort
  have hle := hloop.body.le
  refine ⟨?_, ?_, ?_, ?_, fun _ hu => hp.reaches hu list⟩
  · intro l t hl hlasts hbody hat
    rcases hturns.at_every_state hl hlasts hbody with ⟨_, hlisted, _, hv⟩ | ⟨hover, _⟩ | ⟨hnot, _⟩
    · exact ⟨hlisted.continues, hv⟩
    · have : test + 12 = last + 5 := hat.2.symm.trans hover.2
      omega
    · exact absurd hat hnot
  · intro l t hl hlasts hbody hat
    rcases hturns.at_every_state hl hlasts hbody with ⟨hbegun, _⟩ | ⟨_, hlisted, hi⟩ | ⟨_, hnot, _⟩
    · have : last + 5 = test + 12 := hat.2.symm.trans hbegun.2
      omega
    · exact ⟨hlisted.continues, hi⟩
    · exact absurd hat hnot
  · intro l t hl hlasts hbody hfirst hfinish
    rcases hturns.at_every_state hl hlasts hbody with ⟨hat, _⟩ | ⟨hat, _⟩ | ⟨_, _, hgoes⟩
    · exact absurd hat hfirst
    · exact absurd hat hfinish
    · exact hgoes
  · intro n hbody
    rcases hturns.begun_or_ended hbody with ⟨l, t, hl, hlasts, hrounds, hat, _⟩ |
      ⟨l, t, hl, hlasts, hrounds, hat, _⟩
    · exact ⟨l, t, hl, hlasts, .inl ⟨hrounds, hat⟩⟩
    · exact ⟨l, t, hl, hlasts, .inr ⟨hrounds, hat⟩⟩

namespace Submission

variable {registry : Registry} {limits : Limits} {source : Submission} {ds : List Definition}
  {schemas : Table String Signature} {p : Program} {c : Callable} {d : Definition} {r : Routine}
  {i : Nat} {place : List Nat} {span : Span} {name : String} {sequence body : Expr}

/-- Every loop over a list of an accepted schema has code, and wherever it has, a run that no limit
stops goes through the list there that the sequence has come to. The slot of the items is that of
the variable, and callbacks of the host may do to all lists what can be done to them. -/
theorem visits_in_order (hosts : registry.WithHosts Operation.UsesContainers)
    (hds : source.definitions = .ok ds)
    (hschemas : Definition.signatures Table.empty ds = .ok schemas)
    (h : source.compile registry limits = .ok p) (hc : c.IsEntryOf p) (hd : ds[i]? = some d)
    (hr : p.routines[i]? = some r)
    (heach : d.schema.body.at? place = some (.each span name sequence body)) :
    (∃ start stop,
      p.Places ⟨registry, schemas⟩ r (.expr (.each span name sequence body)) start stop) ∧
    ∀ start stop,
      p.Places ⟨registry, schemas⟩ r (.expr (.each span name sequence body)) start stop →
      ∃ test last item, p.Places ⟨registry, schemas⟩ r (.operand .list sequence) start test ∧
        r.localNames[item]?.join = some name ∧
        p.Places ⟨registry, schemas⟩ r (.body body) (test + 12) last ∧ stop = last + 5 ∧
        ∀ args world s list rest, c.Visits args world s → s.frame.routine = r →
          s.frame.next = test → s.frame.stack = .list list :: rest → p.RunsFreely s →
          Loop.KeepsShort ⟨s.callers.length, test + 12, last, stop⟩ p s list →
            Loop.GoesThrough ⟨s.callers.length, test + 12, last, stop⟩ p s list item := by
  have declared := Registry.wellDeclared_of_withHosts hosts
  obtain ⟨pools, hp, _⟩ := lowers_of_compile declared.named hds hschemas h
  obtain ⟨rfl, _⟩ := hc
  refine ⟨hp.exists_places hd hr heach, fun start stop hplaces => ?_⟩
  obtain ⟨test, last, items, index, item, hsequence, hname, hbody, rfl, hlisting⟩ :=
    hplaces.of_each hp.named
  refine ⟨test, last, item, hsequence, hname, hbody, rfl, ?_⟩
  intro args world s list rest hs hroutine hnext hstack hfree hshort
  rw [← hroutine] at hlisting
  exact hlisting.goesThrough (hp.size_locals declared hs) hnext hstack hfree
    (hp.keepsLists (Registry.usesContainers_of_withHosts hosts)) hshort

end Submission

/-! ### A loop that only looks -/

namespace Definition

/-- A schema that goes through a list and does nothing. -/
def tour : Definition where
  name := "f"
  schema := {
    name? := some "f"
    params := [⟨"xs", .list, ⟨9, 16⟩⟩]
    returns := .void
    body := .block ⟨18, 41⟩
      [.each ⟨20, 39⟩ "x" (.read ⟨33, 35⟩ "xs") (.block ⟨36, 39⟩ [])]
    span := ⟨0, 41⟩ }

def tourRoutine : Routine where
  name := "f"
  resource? := none
  params := [("xs", .list)]
  returns := .void
  code := #[.loadLocal 0, .storeLocal 1, .pushConstant 0, .storeLocal 2, .loadLocal 2, .loadLocal 1,
    .native .listSize, .lessThan, .jumpIfFalse 18, .loadLocal 1, .loadLocal 2, .native .listGet,
    .storeLocal 3, .loadLocal 2, .pushConstant 1, .arithmetic .add, .storeLocal 2, .jump 4,
    .returnVoid]
  localCount := 4
  localNames := #[some "xs", none, none, some "x"]

theorem lower_tour (ctx : Context) : ∃ s, tour.lower ctx { pools := {} } = .ok (tourRoutine, s) ∧
    s.pools.literals.entries = #[(.number .zero, ()), (.number .one, ())] ∧
      s.pools.hosts.entries = #[] := by
  have hfree (name : String) : Scope.empty.find? name = none := by simp [Scope.find?, Scope.empty]
  have hxs : (Scope.empty.add "xs" .list).find? "xs" = some ⟨.list, 0⟩ := Scope.find?_add_self
  have hitems : (Scope.empty.add "xs" .list).temporary? =
      some (1, (Scope.empty.add "xs" .list).skip) :=
    Scope.temporary?_eq_some_iff.2 ⟨(by decide : 1 < 65535), rfl, rfl⟩
  have hindex : (Scope.empty.add "xs" .list).skip.temporary? =
      some (2, (Scope.empty.add "xs" .list).skip.skip) :=
    Scope.temporary?_eq_some_iff.2 ⟨(by decide : 2 < 65535), rfl, rfl⟩
  have hx : (Scope.empty.add "xs" .list).skip.skip.find? "x" = none := by
    have hne : (Scope.empty.add "xs" .list).find? "x" = none := by
      rw [Scope.find?_add_of_ne (by decide), hfree]
    exact hne
  have hitem : (Scope.empty.add "xs" .list).skip.skip.declare? "x" .any =
      some (⟨.any, 3⟩, (Scope.empty.add "xs" .list).skip.skip.add "x" .any) :=
    Scope.declare?_eq_some_iff.2 (.inr ⟨hx, (by decide : 3 < 65535), rfl, rfl⟩)
  have hzero : Lower.literal (.number .zero) ⟨20, 39⟩ ⟨{}, _⟩ =
      .ok (0, ⟨⟨Table.empty.insert (.number .zero) (), Table.empty⟩,
        (Scope.empty.add "xs" .list).skip.skip.add "x" .any⟩) :=
    Lower.literal_of_find?_eq_none Table.find?_empty (Nat.zero_le _)
  have hzeros : (Table.empty.insert (Literal.number .zero) ()).find? (.number .one) = none := by
    rw [Table.find?_insert_of_ne (by decide), Table.find?_empty]
  have hsize : (Table.empty.insert (Literal.number .zero) ()).entries.size = 1 := by
    rw [Table.entries_insert_of_find?_none Table.find?_empty]
    rfl
  have hunit : Lower.literal (.number .one) ⟨20, 39⟩
      ⟨⟨Table.empty.insert (.number .zero) (), Table.empty⟩, _⟩ =
      .ok (1, ⟨⟨(Table.empty.insert (.number .zero) ()).insert (.number .one) (), Table.empty⟩,
        (Scope.empty.add "xs" .list).skip.skip.add "x" .any⟩) :=
    hsize ▸ Lower.literal_of_find?_eq_none (s := ⟨⟨_, _⟩, _⟩) hzeros
      (hsize ▸ (by decide : 1 ≤ maxPosition))
  have hnames : ((Scope.empty.add "xs" .list).skip.skip.add "x" .any).slotNames =
      #[some "xs", none, none, some "x"] := by
    have hentries : ((Scope.empty.add "xs" .list).skip.skip.add "x" .any).locals.entries =
        #[("xs", ⟨.list, 0⟩), ("x", ⟨.any, 3⟩)] := by
      rw [Scope.add, Table.entries_insert_of_find?_none hx, Scope.skip, Scope.skip, Scope.add,
        Table.entries_insert_of_find?_none (hfree _)]
      rfl
    rw [Scope.slotNames, hentries]
    rfl
  have hread : Lowered ctx 0 (.operand .list (.read ⟨33, 35⟩ "xs"))
      ⟨{}, Scope.empty.add "xs" .list⟩ .list #[.loadLocal 0] [] ⟨{}, _⟩ :=
    .of_eq (.operand (.read (s := ⟨{}, _⟩) hxs) (by simp) rfl) (by rfl)
  have hlowers := Lowers.intro (d := tour) rfl (by decide)
    (.statements (.each hread hitems hindex hitem hzero hunit (.body (.block .noStatements)))
      .noStatements) (.nothing rfl)
  rw [hnames] at hlowers
  refine ⟨_, hlowers.lower (by decide) (by decide), ?_, rfl⟩
  rw [Table.entries_insert_of_find?_none hzeros,
    Table.entries_insert_of_find?_none Table.find?_empty]
  rfl

end Definition

def Program.tour : Program where
  routines := #[Definition.tourRoutine]
  constants := #[.number .zero, .number .one]

theorem Program.ofDefinitions_tour (registry : Registry) :
    ofDefinitions registry {} [.tour] = .ok tour := by
  obtain ⟨s, hs, hliterals, hhosts⟩ := Definition.lower_tour _
  rw [ofDefinitions_singleton {} hs, hliterals, hhosts]
  simp [tour]

namespace Submission

def tour : Submission := .text "schema f(xs list) \x7b foreach x in xs \x7b \x7d \x7d"

theorem definitions_tour : tour.definitions = .ok [.tour] := by cbv

theorem compile_tour (registry : Registry) : tour.compile registry {} = .ok .tour := by
  rw [compile_eq, definitions_tour]
  exact Program.ofDefinitions_tour registry

/-- The schema is called with a list of two items and has come to its loop. -/
def touring : State :=
  (State.start Definition.tourRoutine [.list 0]
    { World.blank with heap.cells := #[.list #[.string "a", .string "b"]] }).goto 1 [.list 0]

theorem readsValues_tour : ∀ d ∈ [Definition.tour], d.ReadsValues := by
  intro d hd
  cases List.mem_singleton.1 hd
  refine ⟨⟨trivial, ?_, trivial⟩, trivial⟩
  intro q hq _
  cases List.mem_singleton.1 hq
  decide

theorem named_tour {registry : Registry} (declared : registry.All Operation.WellDeclared) :
    Context.Named ⟨registry, Table.empty.insert "f" Definition.tour.signature⟩ := by
  obtain ⟨_, hp, _⟩ := lowers_of_compile declared.named definitions_tour
    (Definition.signatures_singleton .tour) (compile_tour registry)
  exact hp.named

theorem tour_visits_in_order : Registry.standard.WithHosts Operation.UsesContainers ∧
    tour.definitions = .ok [.tour] ∧ tour.compile Registry.standard {} = .ok .tour ∧
    (∀ i v, #[Value.string "a", .string "b"][i]? = some v → ∃ l t,
      Program.tour.Passes touring l t ∧ Loop.rounds ⟨0, 13, 13, 18⟩ l = i ∧
        t.frame.locals[3]? = some (some v)) ∧
    ∃ l t, Program.tour.Passes touring l t ∧ Loop.rounds ⟨0, 13, 13, 18⟩ l = 2 ∧
      t.frame.next = 18 := by
  have hosts : Registry.standard.WithHosts Operation.UsesContainers := .standard
  have declared := Registry.wellDeclared_of_withHosts hosts
  have entry : Callable.IsEntryOf ⟨.tour, .routine 0⟩ .tour := by
    refine ⟨rfl, ?_⟩
    rintro _ ⟨⟩
    decide
  have visits : Callable.Visits ⟨.tour, .routine 0⟩ [.list 0] touring.world touring :=
    .intro rfl rfl rfl (.single rfl)
  have free : Program.tour.RunsFreely touring :=
    runsFreely declared definitions_tour (Definition.signatures_singleton .tour) readsValues_tour
      (compile_tour _) entry (by decide) (by decide) (by decide) visits
  have place : Definition.tour.schema.body.at? [0] = some _ := rfl
  obtain ⟨⟨start, stop, hplaces⟩, hall⟩ := visits_in_order hosts definitions_tour
    (Definition.signatures_singleton .tour) (compile_tour _) entry (i := 0) rfl rfl place
  obtain ⟨test, last, item, _, hname, hbody, rfl, hall⟩ := hall start stop hplaces
  cases hbody.of_empty_body
  -- Code looks at the size of a list in one place only, so that is where the loop does.
  have htest : test = 1 := by
    obtain ⟨test', last', _, _, _, _, _, hbody', hstop, hlisting⟩ :=
      hplaces.of_each (named_tour declared)
    cases hbody'.of_empty_body
    obtain ⟨_, _, _, _, hhead, _⟩ := hlisting.code
    have hsize : ∀ k < 19, Definition.tourRoutine.code[k]? = some (.native .listSize) → k = 6 := by
      decide
    have hi := hhead.get 5 rfl
    have := hsize _ (Array.getElem?_eq_some_iff.1 hi).1 hi
    omega
  subst htest
  have hitem : item = 3 := by
    have hnames : ∀ k < 4, Definition.tourRoutine.localNames[k]?.join = some "x" → k = 3 := by
      decide
    refine hnames item ?_ hname
    by_contra hge
    rw [Array.getElem?_eq_none (Nat.le_of_not_lt hge)] at hname
    cases hname
  subst hitem
  have hkeeps : Program.tour.checks
      (fun t => t.world.heap.items 0 = #[.string "a", .string "b"]) 40 touring = true := by
    decide +kernel
  have hlist {l : List State} {t : State} (h : Program.tour.Passes touring l t) :
      t.world.heap.items 0 = #[.string "a", .string "b"] :=
    of_decide_eq_true (h.of_checks 40 hkeeps)
  have hthrough : Loop.GoesThrough ⟨0, 13, 13, 18⟩ .tour touring 0 3 :=
    hall [.list 0] touring.world touring 0 [] visits rfl rfl rfl free fun l t h _ => by
      rw [hlist h]
      decide
  have hbody (n : Nat) : Loop.Completes ⟨0, 13, 13, 18⟩ .tour touring n :=
    fun _ t _ _ _ hat => ⟨[], t, .refl, hat⟩
  have hends {l : List State} {t : State} (hl : Program.tour.Passes touring l t)
      (hlasts : Loop.Lasts ⟨0, 13, 13, 18⟩ l) (hat : t.IsAt 0 18) :
      Loop.rounds ⟨0, 13, 13, 18⟩ l = 2 := by
    obtain ⟨_, hrounds⟩ := hthrough.ends hl hlasts (hbody _) hat
    rw [hlist hl] at hrounds
    exact hrounds
  refine ⟨hosts, definitions_tour, compile_tour _, fun i v hv => ?_, ?_⟩
  · have hi : i < 2 := (Array.getElem?_eq_some_iff.1 hv).1
    obtain ⟨l, t, hl, hlasts, ⟨rfl, hat⟩ | ⟨hrounds, hat⟩⟩ := hthrough.comes i (hbody i)
    · obtain ⟨_, w, hw, hitem⟩ := hthrough.visits hl hlasts (hbody _) hat
      rw [hlist hl, hv] at hw
      exact ⟨l, t, hl, rfl, hw ▸ hitem⟩
    · have := hends hl hlasts hat
      omega
  · obtain ⟨l, t, hl, hlasts, ⟨hrounds, hat⟩ | ⟨_, hat⟩⟩ := hthrough.comes 2 (hbody 2)
    · obtain ⟨_, w, hw, _⟩ := hthrough.visits hl hlasts (hbody _) hat
      rw [hlist hl, hrounds] at hw
      cases hw
    · exact ⟨l, t, hl, hends hl hlasts hat, hat.2⟩

end Submission

end EventScript
