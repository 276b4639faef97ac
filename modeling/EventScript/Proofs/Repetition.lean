import EventScript.Proofs.FreeRuns
import EventScript.Proofs.Lowering.Derived
import EventScript.Proofs.Lowering.Parts
import EventScript.Proofs.Number.Whole

/-!
How often a loop repeats its body. The count is kept in a slot that the body cannot change and is
lessened by one after every round, as numbers are: a count up to `2 ^ 53` is exact, but one from
which nothing is taken when one is subtracted never comes to its end.
-/
namespace EventScript

/-- The number from which one has been subtracted so many times. -/
def Number.lessened (x : Number) : Nat → Number
  | 0 => x
  | i + 1 => (x.lessened i).sub .one

namespace Number

variable {x : Number} {n i : Nat}

theorem index?_lessened (h : x.index? = some n) (hn : n ≤ 2 ^ 53) (hi : i ≤ n) :
    (x.lessened i).index? = some (n - i) := by
  induction i with
  | zero => exact h
  | succ i ih =>
    refine index?_sub_one ?_ (by omega)
    rw [ih (Nat.le_of_lt hi)]
    congr 1
    omega

theorem lessened_of_sub_one (h : x.sub .one = x) (i : Nat) : x.lessened i = x := by
  induction i with
  | zero => rfl
  | succ i ih => rw [lessened, ih, h]

end Number

namespace Program

variable {p : Program} {test last counter i : Nat} {s t u : State} {x y : Number}
  {stack : List Value}

/-- The loop that counts down from `x` has made so many rounds. -/
structure Counted (s : State) (counter : Nat) (x : Number) (i : Nat) (t : State) : Prop where
  continues : s.Continues t
  counter : t.frame.locals[counter]? = some (some (.number (x.lessened i)))

theorem Counted.goto (h : Counted s counter x i t) (next : Nat) (stack : List Value) :
    Counted s counter x i (t.goto next stack) := ⟨h.continues.goto .., h.counter⟩

namespace Countdown

/-! What the code around the body does, from one state to another. -/

section

variable (h : p.Countdown t.frame.routine test last counter)

include h

theorem traverses_begin (hnext : t.frame.next = test) (hstack : t.frame.stack = .number x :: stack)
    (hcounter : counter < t.frame.locals.size) : p.Traverses test (test + 1) t
      ((t.store counter (.number x)).goto (test + 1) stack) := by
  obtain ⟨_, _, _, _, hhead, _⟩ := h
  apply traverses_of_goto hnext hstack
  apply traverses_storeLocal (Nat.le_refl _) (Nat.lt_succ_self _) (hhead.get 0 rfl) hcounter
  exact traverses_refl _ _ _ _

/-- The counter is compared with one. -/
theorem traverses_compare (hnext : t.frame.next = test + 1)
    (hcounter : t.frame.locals[counter]? = some (some (.number y))) :
    p.Traverses (test + 1) (test + 5) t
      (t.goto (if y.atLeast .one then test + 5 else last + 5) t.frame.stack) := by
  obtain ⟨_, _, _, hone, hhead, _⟩ := h
  apply traverses_of_goto hnext rfl
  apply traverses_loadLocal (Nat.le_refl _) (by omega) (hhead.get 1 rfl) hcounter
  apply traverses_pushConstant (by omega) (by omega) (hhead.get 2 rfl) hone
  apply traverses_atLeast (by omega) (by omega) (hhead.get 3 rfl)
  apply traverses_jumpIfFalse (by omega) (by omega) (hhead.get 4 rfl)
  exact traverses_refl _ _ _ _

/-- Behind the body the counter comes first. -/
theorem free_last (hnext : t.frame.next = last) {v : Value}
    (hcounter : t.frame.locals[counter]? = some (some v)) :
    p.free t = .running (t.goto (last + 1) (v :: t.frame.stack)) := by
  obtain ⟨_, _, _, _, _, htail⟩ := h
  have hi : t.instruction? = some (.loadLocal counter) := by
    rw [State.instruction?, hnext]
    exact htail.get 0 rfl
  rw [free_loadLocal hi hcounter, hnext]

/-- Then it is lessened by one. -/
theorem traverses_next (hcounter : counter < t.frame.locals.size) :
    p.Traverses (last + 1) (last + 5) (t.goto (last + 1) (.number y :: stack))
      ((t.store counter (.number (y.sub .one))).goto (test + 1) stack) := by
  obtain ⟨_, _, _, hone, _, htail⟩ := h
  apply traverses_pushConstant (Nat.le_refl _) (by omega) (htail.get 1 rfl) hone
  apply traverses_arithmetic (by omega) (by omega) (htail.get 2 rfl)
  apply traverses_storeLocal (by omega) (by omega) (htail.get 3 rfl) hcounter
  apply traverses_jump (s := t.store _ _) (by omega) (by omega) (htail.get 4 rfl)
  exact traverses_refl _ _ _ _

end

/-- The counter is lessened after every round, and the body begins as long as it is at least one. -/
theorem turns (hloop : p.Countdown s.frame.routine test last counter)
    (hsize : s.frame.locals.size = s.frame.routine.localCount) (hnext : s.frame.next = test)
    (hstack : s.frame.stack = .number x :: stack) (hs : p.RunsFreely s) :
    Loop.Turns ⟨s.callers.length, test + 5, last, last + 5⟩ p s
      (fun i t => t.frame.next = test + 1 ∧ Counted s counter x i t)
      (fun i t => Counted s counter x i t ∧ (x.lessened i).atLeast .one = true)
      (fun i t => Counted s counter x i t ∧ (x.lessened i).atLeast .one = false) := by
  have hslot := hloop.slot
  have hle := hloop.body.le
  rw [← hsize] at hslot
  refine ⟨?_, ?_, ?_⟩
  · obtain ⟨l, hl, hlasts, hrounds⟩ := (hloop.traverses_begin hnext hstack hslot).apart
      (c := ⟨s.callers.length, test + 5, last, last + 5⟩) hs (.inr (by simp))
      (.inr (by simp; omega))
    exact ⟨l, _, hl, hlasts, hrounds, rfl, ((State.Continues.refl s).store ..).goto ..,
      State.locals_store_self hslot⟩
  · intro i l t hl _ _ ⟨hnext, hcounted⟩
    have hhere : p.Countdown t.frame.routine test last counter :=
      hcounted.continues.routine ▸ hloop
    obtain ⟨m, hm, hlasts, hrounds⟩ := (hhere.traverses_compare hnext hcounted.counter).apart
      (c := ⟨s.callers.length, test + 5, last, last + 5⟩) (hs.of_reaches hl.reaches)
      (.inr (by simp)) (.inr (by simp; omega))
    refine ⟨m, _, hm, hlasts, hrounds, ?_⟩
    have hheight : t.callers.length = s.callers.length := by rw [hcounted.continues.callers]
    cases hgoes : (x.lessened i).atLeast .one with
    | true => exact .inl ⟨⟨hheight, rfl⟩, hcounted.goto .., rfl⟩
    | false => exact .inr ⟨⟨hheight, rfl⟩, hcounted.goto .., rfl⟩
  · intro i t m u hreaches hat ⟨hcounted, _⟩ hpasses hu
    have hhere : p.Countdown t.frame.routine test last counter :=
      hcounted.continues.routine ▸ hloop
    refine Loop.comes_round (hs.of_reaches hreaches) hhere.body (by simp) hat hpasses hu ?_
    intro v hcallers hnext hstays _
    have hthere : p.Countdown v.frame.routine test last counter := hstays.routine ▸ hhere
    have hcontinues := hcounted.continues.of_staysIn hcallers hstays
    have hcounter := (hstays.kept counter rfl).trans hcounted.counter
    have hslot : counter < v.frame.locals.size := by rwa [hcontinues.size]
    exact ⟨_, _, hthere.free_last hnext hcounter, hthere.traverses_next hslot, rfl,
      (hcontinues.store ..).goto .., State.locals_store_self hslot⟩

end Countdown

end Program

/-- How a loop goes on that begins in a state with a count. It ends when the count has been lessened
below one, and has made a round for every time before. For a count up to `2 ^ 53` that is the count
itself; one that never comes below one is never done with. -/
structure Loop.CountsDown (c : Loop) (p : Program) (s : State) (x : Number) : Prop where
  ends : ∀ {n}, (∀ i < n, (x.lessened i).atLeast .one = true) →
    (x.lessened n).atLeast .one = false → c.Completes p s n →
      ∃ l t, p.Passes s l t ∧ c.Lasts l ∧ c.rounds l = n ∧ s.Continues t ∧ t.frame.next = c.finish
  counted : ∀ {n}, x.index? = some n → n ≤ 2 ^ 53 → c.Completes p s n →
    ∃ l t, p.Passes s l t ∧ c.Lasts l ∧ c.rounds l = n ∧ s.Continues t ∧ t.frame.next = c.finish
  endless : (∀ i, (x.lessened i).atLeast .one = true) → (∀ n, c.Completes p s n) → ∀ n,
    ∃ l t, p.Passes s l t ∧ c.Lasts l ∧ c.rounds l = n ∧ s.Continues t ∧ t.frame.next = c.first

theorem Program.Countdown.countsDown {p : Program} {test last counter : Nat} {s : State}
    {x : Number} {stack : List Value} (hloop : p.Countdown s.frame.routine test last counter)
    (hsize : s.frame.locals.size = s.frame.routine.localCount) (hnext : s.frame.next = test)
    (hstack : s.frame.stack = .number x :: stack) (hs : p.RunsFreely s) :
    Loop.CountsDown ⟨s.callers.length, test + 5, last, last + 5⟩ p s x := by
  have hturns := hloop.turns hsize hnext hstack hs
  have hends {n : Nat} (hbefore : ∀ i < n, (x.lessened i).atLeast .one = true)
      (hafter : (x.lessened n).atLeast .one = false)
      (hbody : Loop.Completes ⟨s.callers.length, test + 5, last, last + 5⟩ p s n) :
      ∃ l t, p.Passes s l t ∧ Loop.Lasts ⟨s.callers.length, test + 5, last, last + 5⟩ l ∧
        Loop.rounds ⟨s.callers.length, test + 5, last, last + 5⟩ l = n ∧ s.Continues t ∧
          t.frame.next = last + 5 := by
    rcases hturns.begun_or_ended hbody with
      ⟨_, _, _, _, _, _, _, hbegun⟩ | ⟨l, t, hl, hlasts, hle, hat, hcounted, hover⟩
    · rw [hafter] at hbegun
      cases hbegun
    · refine ⟨l, t, hl, hlasts, Nat.le_antisymm hle (Nat.le_of_not_lt fun hlt => ?_),
        hcounted.continues, hat.2⟩
      rw [hbefore _ hlt] at hover
      cases hover
  refine ⟨hends, fun {n} hx hn hbody => ?_, fun hlarge hbody n => ?_⟩
  · have hleft {i : Nat} (hi : i ≤ n) : (x.lessened i).atLeast .one = decide (1 ≤ n - i) :=
      Number.atLeast_one_of_index? (Number.index?_lessened hx hn hi) (by omega)
    refine hends (fun i hi => ?_) ?_ hbody
    · rw [hleft (Nat.le_of_lt hi), decide_eq_true_eq]
      omega
    · rw [hleft (Nat.le_refl n), Nat.sub_self]
      rfl
  · rcases hturns.begun_or_ended (hbody n) with
      ⟨l, t, hl, hlasts, hrounds, hat, hcounted, _⟩ | ⟨_, _, _, _, _, _, _, hover⟩
    · exact ⟨l, t, hl, hlasts, hrounds, hcounted.continues, hat.2⟩
    · rw [hlarge] at hover
      cases hover

namespace Submission

variable {registry : Registry} {limits : Limits} {source : Submission} {ds : List Definition}
  {schemas : Table String Signature} {p : Program} {c : Callable} {d : Definition} {r : Routine}
  {i : Nat} {place : List Nat} {span : Span} {count body : Expr}

/-- Every counting loop of an accepted schema has code, and wherever it has, a run that no limit
stops counts down there from what the count has come to. -/
theorem repeats_count_times (declared : registry.All Operation.WellDeclared)
    (hds : source.definitions = .ok ds)
    (hschemas : Definition.signatures Table.empty ds = .ok schemas)
    (h : source.compile registry limits = .ok p) (hc : c.IsEntryOf p) (hd : ds[i]? = some d)
    (hr : p.routines[i]? = some r)
    (hloop : d.schema.body.at? place = some (.loop span count body)) :
    (∃ start stop, p.Places ⟨registry, schemas⟩ r (.expr (.loop span count body)) start stop) ∧
    ∀ start stop, p.Places ⟨registry, schemas⟩ r (.expr (.loop span count body)) start stop →
      ∃ test last, p.Places ⟨registry, schemas⟩ r (.operand .number count) start test ∧
        p.Places ⟨registry, schemas⟩ r (.body body) (test + 5) last ∧ stop = last + 5 ∧
        ∀ args world s x rest, c.Visits args world s → s.frame.routine = r → s.frame.next = test →
          s.frame.stack = .number x :: rest → p.RunsFreely s →
            Loop.CountsDown ⟨s.callers.length, test + 5, last, stop⟩ p s x := by
  obtain ⟨pools, hp, _⟩ := lowers_of_compile declared.named hds hschemas h
  obtain ⟨rfl, _⟩ := hc
  refine ⟨hp.exists_places hd hr hloop, fun start stop hplaces => ?_⟩
  obtain ⟨test, last, counter, hcount, hbody, rfl, hcountdown⟩ := hplaces.of_loop hp.named
  refine ⟨test, last, hcount, hbody, rfl, ?_⟩
  intro args world s x rest hs hroutine hnext hstack hfree
  rw [← hroutine] at hcountdown
  exact hcountdown.countsDown (hp.size_locals declared hs) hnext hstack hfree

end Submission

/-! ### A loop with nothing to do -/

namespace Definition

/-- A schema that does nothing as often as it is told. -/
def idle : Definition where
  name := "f"
  schema := {
    name? := some "f"
    params := [⟨"n", .number, ⟨9, 17⟩⟩]
    returns := .void
    body := .block ⟨19, 35⟩ [.loop ⟨21, 33⟩ (.read ⟨28, 29⟩ "n") (.block ⟨30, 33⟩ [])]
    span := ⟨0, 35⟩ }

def idleRoutine : Routine where
  name := "f"
  resource? := none
  params := [("n", .number)]
  returns := .void
  code := #[.loadLocal 0, .storeLocal 1, .loadLocal 1, .pushConstant 0, .atLeast, .jumpIfFalse 11,
    .loadLocal 1, .pushConstant 0, .arithmetic .sub, .storeLocal 1, .jump 2, .returnVoid]
  localCount := 2
  localNames := #[some "n", none]

theorem lower_idle (ctx : Context) : ∃ s, idle.lower ctx { pools := {} } = .ok (idleRoutine, s) ∧
    s.pools = ⟨Table.empty.insert (.number .one) (), Table.empty⟩ := by
  have hfree : Scope.empty.find? "n" = none := by simp [Scope.find?, Scope.empty]
  have hn : (Scope.empty.add "n" .number).find? "n" = some ⟨.number, 0⟩ := Scope.find?_add_self
  have hslot : (Scope.empty.add "n" .number).temporary? =
      some (1, (Scope.empty.add "n" .number).skip) :=
    Scope.temporary?_eq_some_iff.2 ⟨(by decide : 1 < 65535), rfl, rfl⟩
  have hunit : Lower.literal (.number .one) ⟨21, 33⟩ ⟨{}, (Scope.empty.add "n" .number).skip⟩ =
      .ok (0, ⟨⟨Table.empty.insert (.number .one) (), Table.empty⟩, _⟩) :=
    Lower.literal_of_find?_eq_none Table.find?_empty (Nat.zero_le _)
  have hnames : (Scope.empty.add "n" .number).skip.slotNames = #[some "n", none] := by
    rw [Scope.slotNames, Scope.skip, Scope.add, Table.entries_insert_of_find?_none hfree]
    rfl
  have hread : Lowered ctx 0 (.operand .number (.read ⟨28, 29⟩ "n"))
      ⟨{}, Scope.empty.add "n" .number⟩ .number #[.loadLocal 0] [] ⟨{}, _⟩ :=
    .of_eq (.operand (.read (s := ⟨{}, _⟩) hn) (by simp) rfl) (by rfl)
  have hlowers := Lowers.intro (d := idle) rfl (by decide)
    (.statements (.loop hread hslot hunit (.body (.block .noStatements))) .noStatements)
    (.nothing rfl)
  rw [hnames] at hlowers
  exact ⟨_, hlowers.lower (by decide) (by decide), rfl⟩

end Definition

def Program.idle : Program where
  routines := #[Definition.idleRoutine]
  constants := #[.number .one]

theorem Program.ofDefinitions_idle (registry : Registry) :
    ofDefinitions registry {} [.idle] = .ok idle := by
  obtain ⟨s, hs, hpools⟩ := Definition.lower_idle _
  rw [ofDefinitions_singleton {} hs, hpools, Table.entries_insert_of_find?_none Table.find?_empty]
  simp [idle]

namespace Submission

def idle : Submission := .text "schema f(n number) \x7b repeat n \x7b \x7d \x7d"

theorem definitions_idle : idle.definitions = .ok [.idle] := by cbv

theorem compile_idle (registry : Registry) : idle.compile registry {} = .ok .idle := by
  rw [compile_eq, definitions_idle]
  exact Program.ofDefinitions_idle registry

theorem readsValues_idle : ∀ d ∈ [Definition.idle], d.ReadsValues := by
  intro d hd
  cases List.mem_singleton.1 hd
  refine ⟨⟨?_, trivial⟩, trivial⟩
  intro q hq _
  cases List.mem_singleton.1 hq
  decide

theorem named_idle {registry : Registry} (declared : registry.All Operation.WellDeclared) :
    Context.Named ⟨registry, Table.empty.insert "f" Definition.idle.signature⟩ := by
  obtain ⟨_, hp, _⟩ := lowers_of_compile declared.named definitions_idle
    (Definition.signatures_singleton .idle) (compile_idle registry)
  exact hp.named

/-- The schema is called with a count and has come to its loop. -/
def idling (x : Number) : State :=
  (State.start Definition.idleRoutine [.number x] .blank).goto 1 [.number x]

theorem idle_repeats_count_times : Registry.standard.All Operation.WellDeclared ∧
    idle.definitions = .ok [.idle] ∧ idle.compile Registry.standard {} = .ok .idle ∧
    (∃ l t, Program.idle.Passes (idling (.ofNat 2)) l t ∧ Loop.rounds ⟨0, 6, 6, 11⟩ l = 2 ∧
      t.frame.next = 11) ∧
    ∀ n, ∃ l t, Program.idle.Passes (idling (.ofNat (2 ^ 53 + 4))) l t ∧
      Loop.Lasts ⟨0, 6, 6, 11⟩ l ∧ Loop.rounds ⟨0, 6, 6, 11⟩ l = n := by
  have declared : Registry.standard.All Operation.WellDeclared :=
    Registry.wellDeclared_of_withHosts (Q := fun _ => True) .standard
  have entry : Callable.IsEntryOf ⟨.idle, .routine 0⟩ .idle := by
    refine ⟨rfl, ?_⟩
    rintro _ ⟨⟩
    decide
  have visits (x : Number) : Callable.Visits ⟨.idle, .routine 0⟩ [.number x] .blank (idling x) :=
    .intro rfl rfl rfl (.single rfl)
  have free (x : Number) : Program.idle.RunsFreely (idling x) :=
    runsFreely declared definitions_idle (Definition.signatures_singleton .idle) readsValues_idle
      (compile_idle _) entry (by decide) (by decide) (by decide) (visits x)
  have place : Definition.idle.schema.body.at? [0] = some _ := rfl
  obtain ⟨⟨start, stop, hplaces⟩, hall⟩ := repeats_count_times declared definitions_idle
    (Definition.signatures_singleton .idle) (compile_idle _) entry (i := 0) rfl rfl place
  obtain ⟨test, last, _, hbody, rfl, hall⟩ := hall start stop hplaces
  cases hbody.of_empty_body
  -- Code compares in one place only, so that is where the loop looks at its counter.
  have htest : test = 1 := by
    obtain ⟨test', last', _, _, hbody', hstop, hcountdown⟩ := hplaces.of_loop (named_idle declared)
    cases hbody'.of_empty_body
    obtain ⟨_, _, hhead, _⟩ := hcountdown.code
    have hatLeast : ∀ k < 12, Definition.idleRoutine.code[k]? = some .atLeast → k = 4 := by decide
    have hi := hhead.get 3 rfl
    have := hatLeast _ (Array.getElem?_eq_some_iff.1 hi).1 hi
    omega
  subst htest
  have hcount (x : Number) :=
    hall [.number x] .blank (idling x) x [] (visits x) rfl rfl rfl (free x)
  have hbody (s : State) (n : Nat) : Loop.Completes ⟨0, 6, 6, 11⟩ .idle s n :=
    fun _ t _ _ _ hat => ⟨[], t, .refl, hat⟩
  refine ⟨declared, definitions_idle, compile_idle _, ?_, fun n => ?_⟩
  · obtain ⟨l, t, hl, _, hrounds, _, hfinish⟩ := (hcount (.ofNat 2)).counted
      (Number.index?_ofNat (by decide)) (by decide) (hbody _ _)
    exact ⟨l, t, hl, hrounds, hfinish⟩
  · have hlarge (i : Nat) : ((Number.ofNat (2 ^ 53 + 4)).lessened i).atLeast .one = true := by
      rw [Number.lessened_of_sub_one (by decide)]
      decide
    obtain ⟨l, t, hl, hlasts, hrounds, _⟩ :=
      (hcount (.ofNat (2 ^ 53 + 4))).endless hlarge (hbody _) n
    exact ⟨l, t, hl, hlasts, hrounds⟩

end Submission

end EventScript
