import EventScript.Machine
import EventScript.Proofs.Lists
import EventScript.Proofs.Lowering.Derived
import EventScript.Proofs.Positions.Requests

/-!
The constants that code fetches. Every literal of a tree is asked for where its code is written, and
stands there in the finished program, whatever other literals have been asked for since.
-/
namespace EventScript

/-- What an instruction fetches from these constants, if it is one that does. -/
def Instruction.fetched? (constants : Array Literal) : Instruction → Option (Option Literal)
  | .pushConstant i => some constants[i]?
  | _ => none

/-- What code fetches from these constants, in order. -/
def Code.fetched (constants : Array Literal) (code : Code) : List (Option Literal) :=
  code.toList.filterMap (·.fetched? constants)

namespace Expr

mutual

/-- The literals of a tree, in the order of its code: those that are written in it, and the numbers
with which its loops count. -/
def constants : Expr → List Literal
  | .number _ n => [.number n]
  | .string _ s => [.string s]
  | .text _ markup => ((RichText.parseMarkup markup).toOption.map .text).toList
  | .bool _ b => [.number (.ofBool b)]
  | .read _ _ => []
  | .write _ _ value => value.constants
  | .arithmetic _ _ left right => left.constants ++ right.constants
  | .branch _ condition thenBody none => condition.constants ++ thenBody.constants
  | .branch _ condition thenBody (some elseBody) =>
    condition.constants ++ thenBody.constants ++ elseBody.constants
  | .loop _ count body =>
    count.constants ++ .number .one :: body.constants ++ [.number .one]
  | .each _ _ sequence body =>
    sequence.constants ++ .number .zero :: body.constants ++ [.number .one]
  | .block _ statements => allConstants statements
  | .bound _ _ args | .call _ _ args _ => allConstants args

def allConstants : List Expr → List Literal
  | [] => []
  | e :: es => e.constants ++ allConstants es

end

end Expr

namespace Code

variable {constants : Array Literal} {c d : Code} {i : Instruction} {is : List Instruction}

@[simp] theorem fetched_append :
    (c ++ d).fetched constants = c.fetched constants ++ d.fetched constants := by
  simp [fetched]

@[simp] theorem fetched_push :
    fetched constants (c.push i) = c.fetched constants ++ (i.fetched? constants).toList := by
  simp only [fetched, Array.toList_push, List.filterMap_append, List.filterMap_cons,
    List.filterMap_nil]
  cases i.fetched? constants <;> rfl

@[simp] theorem fetched_nil : fetched constants #[] = [] := rfl

@[simp] theorem fetched_cons : fetched constants (i :: is).toArray =
    (i.fetched? constants).toList ++ fetched constants is.toArray := by
  simp only [fetched, List.filterMap_cons]
  cases i.fetched? constants <;> rfl

@[simp] theorem fetched_expectation (expected actual : StaticType) :
    fetched constants (expectation expected actual) = [] := by
  unfold expectation
  split
  · cases expected.runtimeKind? <;> rfl
  · rfl

@[simp] theorem fetched_dropValue (type : StaticType) :
    fetched constants (dropValue type) = [] := by
  unfold dropValue
  split <;> rfl

end Code

/-- Literals are asked for that lead from the one state of the pools to the other, and the code
fetches these. -/
structure Code.Fetches (p q : Pools) (code : Code) (ls : List Literal) : Prop where
  reaches : p.Reaches q
  fetched : code.fetched q.constants = ls.map some

namespace Code.Fetches

variable {p p₁ p₂ q : Pools} {c d : Code} {ls ms : List Literal}

/-- What code fetches stays there. -/
theorem later (h : c.Fetches p p₁ ls) (hq : p₁.Reaches q) :
    c.fetched q.constants = ls.map some := by
  have hkept {ls : List Literal} {is : List Instruction}
      (h : is.filterMap (·.fetched? p₁.constants) = ls.map some) :
      is.filterMap (·.fetched? q.constants) = ls.map some := by
    induction is generalizing ls with
    | nil => exact h
    | cons i is ih =>
      cases i with
      | pushConstant k =>
        cases ls with
        | nil => cases h
        | cons l ls =>
          obtain ⟨hl, h⟩ := List.cons.inj h
          exact List.cons_eq_cons.2 ⟨hq.constants hl, ih h⟩
      | _ => exact ih h
  exact hkept h.fetched

theorem append (h : c.Fetches p p₁ ls) (h' : d.Fetches p₁ p₂ ms) :
    Code.Fetches p p₂ (c ++ d) (ls ++ ms) where
  reaches := h.reaches.trans h'.reaches
  fetched := by rw [fetched_append, h.later h'.reaches, h'.fetched, List.map_append]

theorem nothing (h : ∀ constants, c.fetched constants = []) : c.Fetches p p [] :=
  ⟨.refl p, h _⟩

theorem then_nothing (h : c.Fetches p q ls) (hd : ∀ constants, d.fetched constants = []) :
    Code.Fetches p q (c ++ d) ls := by
  simpa using h.append (nothing hd)

end Code.Fetches

namespace Lower

variable {s s' : Lowering} {l : Literal} {span : Span} {i : Nat}

theorem find_of_literal (h : literal l span s = .ok (i, s')) :
    s.pools.find (.literal l span) = .ok (i, s'.pools) := by
  obtain ⟨⟨j, pools⟩, hp, heq⟩ := map_eq_ok.1 h
  cases heq
  exact hp

/-- A literal that is there is found. -/
theorem literal_of_position? (h : s.pools.literals.position? l = some i) :
    literal l span s = .ok (i, s) := by
  simp only [literal, Pools.literal, h]
  rfl

/-- A literal that has been asked for is at its position. -/
theorem constants_of_literal (h : literal l span s = .ok (i, s')) :
    s'.pools.constants[i]? = some l := by
  have hentry := Lowering.entry_of_literal h
  simp [Pools.constants, hentry]

theorem reaches_of_literal (h : literal l span s = .ok (i, s')) : s.pools.Reaches s'.pools :=
  Pools.reaches_of_find (find_of_literal h)

theorem fetches_of_literal (h : literal l span s = .ok (i, s')) :
    Code.Fetches s.pools s'.pools #[.pushConstant i] [l] where
  reaches := reaches_of_literal h
  fetched := by simp [Instruction.fetched?, constants_of_literal h]

/-- The instruction of a call fetches nothing. -/
theorem fetches_of_target {ctx : Context} {target : Target} {argc : Nat} {instr : Instruction}
    (h : target.lower ctx span argc s = .ok (instr, s')) :
    Code.Fetches s.pools s'.pools #[instr] [] := by
  cases target with
  | operation op =>
    rcases Lowering.of_lower_operation h with ⟨_, _, rfl, rfl⟩ | ⟨call, i, _, rfl, hi⟩
    · exact .nothing fun _ => rfl
    · obtain ⟨⟨j, pools⟩, hp, heq⟩ := map_eq_ok.1 hi
      cases heq
      exact ⟨Pools.reaches_of_find (r := .host op.name call span) hp, rfl⟩
  | schema =>
    obtain ⟨_, _, rfl, rfl⟩ := Lowering.of_lower_schema h
    exact .nothing fun _ => rfl

end Lower

namespace Expr

variable {ctx : Context}

mutual

/-- The code of a tree fetches the literals of the tree. -/
theorem fetches_lower : ∀ (e : Expr) {start : Nat} {s s' : Lowering} {type : StaticType}
    {code : Code}, e.lower ctx start s = .ok ((type, code), s') →
      code.Fetches s.pools s'.pools e.constants
  | .number _ _, _, _, _, _, _, h | .string _ _, _, _, _, _, _, h | .bool _ _, _, _, _, _, _, h => by
    obtain ⟨rfl, i, hi, rfl⟩ := (lower_literal_eq_ok rfl).1 h
    exact Lower.fetches_of_literal hi
  | .text span markup, start, s, s', type, code, h => by
    obtain ⟨t, value⟩ := exists_literal_of_lower_text h
    obtain ⟨rfl, i, hi, rfl⟩ := (lower_literal_eq_ok value).1 h
    have hconstants : (Expr.text span markup).constants = [.text t] := by
      cases Expr.isLiteral_of_literal? value with
      | text read => simp [constants, read, Except.toOption]
    rw [hconstants]
    exact Lower.fetches_of_literal hi
  | .read span name, start, s, s', type, code, h => by
    obtain ⟨l, _, rfl, rfl, rfl⟩ := lower_read_eq_ok.1 h
    exact .nothing fun _ => rfl
  | .write span name value, start, s, s', type, code, h => by
    obtain ⟨found, before, s₁, l, scope, hv, _, _, _, rfl, rfl, rfl⟩ := lower_write_eq_ok.1 h
    exact ((fetches_lower value hv).then_nothing (by simp)).then_nothing fun _ => rfl
  | .arithmetic span op left right, start, s, s', type, code, h => by
    simp only [Expr.lower, Lower.bind_eq_ok, Lower.lift_eq_ok, Lower.pure_eq_ok,
      numberExpectation_eq_ok, Prod.mk.injEq] at h
    obtain ⟨⟨lt, lc⟩, s₁, hl, _, _, ⟨⟨_, rfl⟩, rfl⟩, ⟨rt, rc⟩, s₂, hr, _, _, ⟨⟨_, rfl⟩, rfl⟩,
      ⟨rfl, rfl⟩, rfl⟩ := h
    have hleft := (fetches_lower left hl).then_nothing (d := expectation .number lt) (by simp)
    have hright := fetches_lower right hr
    rw [constants]
    exact ((hleft.append hright).then_nothing (by simp)).then_nothing fun _ => rfl
  | .branch span condition thenBody none, start, s, s', type, code, h => by
    simp only [Expr.lower, Lower.bind_eq_ok, Lower.ite_eq_ok, Lower.lift_eq_ok, Lower.pure_eq_ok,
      refuse_eq_ok, checkOffset_eq_ok, false_and, and_false, exists_false, false_or,
      Prod.mk.injEq] at h
    obtain ⟨⟨ct, cc⟩, s₁, hc, _, ⟨tt, tc⟩, s₂, ht, _, _, ⟨_, rfl⟩, ⟨rfl, rfl⟩, rfl⟩ := h
    have htest := (fetches_lower condition hc).then_nothing (d := expectation .bool ct) (by simp)
    have hthen := (fetches_lower thenBody ht).then_nothing (d := dropValue tt) (by simp)
    rw [constants]
    exact (htest.then_nothing fun _ => rfl).append hthen
  | .branch span condition thenBody (some elseBody), start, s, s', type, code, h => by
    simp only [Expr.lower, Lower.bind_eq_ok, Lower.ite_eq_ok, Lower.lift_eq_ok, Lower.pure_eq_ok,
      refuse_eq_ok, checkOffset_eq_ok, false_and, and_false, exists_false, false_or,
      Prod.mk.injEq] at h
    obtain ⟨⟨ct, cc⟩, s₁, hc, _, ⟨tt, tc⟩, s₂, ht, _, _, ⟨_, rfl⟩, ⟨et, ec⟩, s₃, he, _, _,
      ⟨_, rfl⟩, ⟨rfl, rfl⟩, rfl⟩ := h
    have htest := (fetches_lower condition hc).then_nothing (d := expectation .bool ct) (by simp)
    have hthen := (fetches_lower thenBody ht).then_nothing (d := dropValue tt) (by simp)
    have helse := (fetches_lower elseBody he).then_nothing (d := dropValue et) (by simp)
    rw [constants]
    exact (((htest.then_nothing fun _ => rfl).append hthen).then_nothing fun _ => rfl).append helse
  | .loop span count body, start, s, s', type, code, h => by
    simp only [Expr.lower, Lower.bind_eq_ok, Lower.lift_eq_ok, Lower.pure_eq_ok,
      Lower.temporary_eq_ok, numberExpectation_eq_ok, checkOffset_eq_ok, Prod.mk.injEq] at h
    obtain ⟨⟨ct, cc⟩, s₁, hc, _, _, ⟨⟨_, rfl⟩, rfl⟩, counter, _, ⟨scope, _, rfl⟩, one, s₂,
      hone, _, _, ⟨_, rfl⟩, ⟨bt, bc⟩, s₃, hb, _, _, ⟨_, rfl⟩, ⟨rfl, rfl⟩, rfl⟩ := h
    have hcount := fetches_lower count hc
    have hbody := fetches_lower body hb
    have hunit := Lower.reaches_of_literal hone
    have hlast := hbody.reaches.constants (Lower.constants_of_literal hone)
    refine ⟨hcount.reaches.trans (hunit.trans hbody.reaches), ?_⟩
    simp [constants, Instruction.fetched?, hcount.later (hunit.trans hbody.reaches), hbody.fetched,
      hlast]
  | .each span name sequence body, start, s, s', type, code, h => by
    simp only [Expr.lower, Lower.bind_eq_ok, Lower.ite_eq_ok, Lower.lift_eq_ok, Lower.pure_eq_ok,
      Lower.temporary_eq_ok, Lower.declare_eq_ok, refuse_eq_ok, checkOffset_eq_ok, false_and,
      and_false, exists_false, false_or, Prod.mk.injEq] at h
    obtain ⟨⟨ct, cc⟩, s₁, hc, _, items, _, ⟨scope₁, _, rfl⟩, index, _, ⟨scope₂, _, rfl⟩, _, _,
      ⟨item, scope₃, _, rfl, rfl⟩, first, s₂, hfirst, one, s₃, hone, _, _, ⟨_, rfl⟩, ⟨bt, bc⟩, s₄,
      hb, _, _, ⟨_, rfl⟩, ⟨rfl, rfl⟩, rfl⟩ := h
    have hlist := fetches_lower sequence hc
    have hbody := fetches_lower body hb
    have hnumbers := (Lower.reaches_of_literal hfirst).trans (Lower.reaches_of_literal hone)
    have hzero := ((Lower.reaches_of_literal hone).trans hbody.reaches).constants
      (Lower.constants_of_literal hfirst)
    have hlast := hbody.reaches.constants (Lower.constants_of_literal hone)
    refine ⟨hlist.reaches.trans (hnumbers.trans hbody.reaches), ?_⟩
    simp [constants, Instruction.fetched?, hlist.later (hnumbers.trans hbody.reaches),
      hbody.fetched, hzero, hlast]
  | .block span statements, start, s, s', type, code, h => by
    rw [Expr.lower] at h
    obtain ⟨rest, rfl, hrest⟩ := fetches_lowerStatements statements h
    rw [constants]
    simpa using hrest
  | .bound span target args, start, s, s', type, code, h => by
    simp only [Expr.lower, Lower.bind_eq_ok, Lower.ite_eq_ok, Lower.lift_eq_ok, Lower.pure_eq_ok,
      refuse_eq_ok, false_and, and_false, exists_false, false_or, Prod.mk.injEq] at h
    obtain ⟨hlen, before, s₁, hargs, i, s₂, hi, ⟨rfl, rfl⟩, rfl⟩ := h
    obtain ⟨rest, rfl, hrest⟩ := fetches_lowerArguments target.params args (by simpa using hlen)
      hargs
    rw [constants]
    simpa using hrest.append (Lower.fetches_of_target hi)
  | .call span name args target, start, s, s', type, code, h => by
    simp only [Expr.lower, Lower.bind_eq_ok, Lower.ite_eq_ok, Lower.lift_eq_ok, Lower.get_eq_ok,
      Lower.pure_eq_ok, refuse_eq_ok, false_and, and_false, exists_false, false_or,
      Prod.mk.injEq] at h
    obtain ⟨_, _, ⟨rfl, rfl⟩, target, _, ⟨_, rfl⟩, hlen, before, s₁, hargs, i, s₂, hi,
      ⟨rfl, rfl⟩, rfl⟩ := h
    obtain ⟨rest, rfl, hrest⟩ := fetches_lowerArguments target.params args (by simpa using hlen)
      hargs
    rw [constants]
    simpa using hrest.append (Lower.fetches_of_target hi)

theorem fetches_lowerStatements : ∀ (es : List Expr) {start : Nat} {last : StaticType}
    {before : Code} {s s' : Lowering} {type : StaticType} {code : Code},
      lowerStatements ctx start last before es s = .ok ((type, code), s') →
        ∃ rest, code = before ++ rest ∧ Code.Fetches s.pools s'.pools rest (allConstants es)
  | [], start, last, before, s, s', type, code, h => by
    simp only [lowerStatements, Lower.pure_eq_ok, Prod.mk.injEq] at h
    obtain ⟨⟨rfl, rfl⟩, rfl⟩ := h
    exact ⟨#[], by simp, .nothing fun _ => rfl⟩
  | e :: es, start, last, before, s, s', type, code, h => by
    simp only [lowerStatements, Lower.bind_eq_ok] at h
    obtain ⟨⟨eType, eCode⟩, s₁, he, h⟩ := h
    obtain ⟨rest, rfl, hrest⟩ := fetches_lowerStatements es h
    have hdrop : (dropValue last).Fetches s.pools s.pools [] := .nothing (by simp)
    refine ⟨dropValue last ++ eCode ++ rest, by simp only [Array.append_assoc], ?_⟩
    rw [allConstants]
    exact (hdrop.append (fetches_lower e he)).append hrest

theorem fetches_lowerArguments : ∀ (params : List StaticType) (es : List Expr) {start : Nat}
    {before : Code} {s s' : Lowering} {code : Code}, es.length = params.length →
      lowerArguments ctx start before params es s = .ok (code, s') →
        ∃ rest, code = before ++ rest ∧ Code.Fetches s.pools s'.pools rest (allConstants es)
  | [], [], start, before, s, s', code, _, h => by
    simp only [lowerArguments, Lower.pure_eq_ok] at h
    obtain ⟨rfl, rfl⟩ := h
    exact ⟨#[], by simp, .nothing fun _ => rfl⟩
  | [], _ :: _, _, _, _, _, _, hlen, _ => by cases hlen
  | _ :: _, [], _, _, _, _, _, hlen, _ => by cases hlen
  | expected :: params, e :: es, start, before, s, s', code, hlen, h => by
    simp only [lowerArguments, Lower.bind_eq_ok, Lower.ite_eq_ok, Lower.lift_eq_ok, refuse_eq_ok,
      false_and, and_false, exists_false, false_or] at h
    obtain ⟨⟨type, eCode⟩, s₁, he, _, _, h⟩ := h
    obtain ⟨rest, rfl, hrest⟩ := fetches_lowerArguments params es (by simpa using hlen) h
    refine ⟨eCode ++ expectation expected type ++ rest, by simp only [Array.append_assoc], ?_⟩
    rw [allConstants]
    exact ((fetches_lower e he).then_nothing (by simp)).append hrest

end

end Expr

namespace Definition

variable {ctx : Context} {d : Definition} {pools pools' : Pools} {r : Routine}

theorem fetched_conversion {constants : Array Literal} {type : StaticType} {span : Span}
    {check : Code} (h : d.conversion type span = .ok check) : check.fetched constants = [] := by
  unfold conversion at h
  simp only at h
  split at h
  · cases h
  · split at h
    · cases h
      rfl
    · split at h
      · cases h
        exact Code.fetched_expectation _ _
      · cases h

theorem fetches_of_lowerWith (h : d.lowerWith ctx pools = .ok (r, pools')) :
    r.code.Fetches pools pools' d.schema.body.constants := by
  obtain ⟨⟨r, s'⟩, hl, heq⟩ := map_eq_ok.1 (mapError_eq_ok.1 h)
  cases heq
  simp only [StateT.run, lower, Lower.bind_eq_ok, Lower.get_eq_ok, Lower.pure_eq_ok] at hl
  obtain ⟨_, s₁, hparams, code, s₂, hbody, _, _, ⟨rfl, rfl⟩, rfl, rfl⟩ := hl
  obtain ⟨rfl, -, -⟩ := of_declareParams hparams
  cases hblock : d.schema.body with
  | block span es =>
    simp only [lowerBody, hblock, Lower.bind_eq_ok, Lower.ite_eq_ok, Lower.pure_eq_ok,
      Lower.lift_eq_ok] at hbody
    obtain ⟨⟨type, _⟩, s₃, hes, hend⟩ := hbody
    obtain ⟨rest, rfl, hrest⟩ := Expr.fetches_lowerStatements es hes
    have key (ending : Code) (hending : ∀ constants, ending.fetched constants = [])
        (hcode : code = rest ++ ending) (hs : s' = s₃) :
        code.Fetches pools s'.pools (Expr.block span es).constants := by
      subst hcode hs
      rw [Expr.constants]
      exact hrest.then_nothing hending
    rcases hend with ⟨_, rfl, rfl⟩ | ⟨_, check, _, ⟨hcheck, rfl⟩, rfl, rfl⟩
    · exact key (dropValue type ++ #[.returnVoid])
        (fun _ => by simp [Instruction.fetched?]) (by simp) rfl
    · exact key (check ++ #[.returnValue])
        (fun _ => by simp [Instruction.fetched?, fetched_conversion hcheck]) (by simp) rfl
  | _ => simp only [lowerBody, hblock, Lower.lift_eq_ok, refuse_eq_ok, false_and] at hbody

/-- Every routine fetches the literals of its schema, from the pools that all schemas leave. -/
theorem fetches_of_lowerAll : ∀ {ds : List Definition} {pools pools' : Pools}
    {routines routines' : Array Routine}, lowerAll ctx pools routines ds = .ok (routines', pools') →
      pools.Reaches pools' ∧ ∃ new : List Routine, routines'.toList = routines.toList ++ new ∧
        List.Forall₂ (fun d r => r.code.fetched pools'.constants =
          d.schema.body.constants.map some) ds new
  | [], pools, pools', routines, routines', h => by
    cases h
    exact ⟨.refl _, [], by simp, .nil⟩
  | d :: ds, pools, pools', routines, routines', h => by
    simp only [lowerAll, bind_eq_ok] at h
    obtain ⟨⟨r, pools₁⟩, hd, h⟩ := h
    have hfetches := fetches_of_lowerWith hd
    obtain ⟨hreaches, new, hnew, hall⟩ := fetches_of_lowerAll h
    exact ⟨hfetches.reaches.trans hreaches, r :: new, by simpa using hnew,
      .cons (hfetches.later hreaches) hall⟩

end Definition

namespace Program

/-- Whatever pools are asked for, their literals are found where they are and do not move. All that
a program is compiled from is asked for like this, so that each of its routines fetches what is
written in its schema, and this is what a run pushes. -/
theorem constants_asWritten (rs more : List Pools.Request) :
    (Pools.after {} rs).KeepsConstants ∧
    (∀ (i : Nat) l, (Pools.after {} rs).constants[i]? = some l →
      (Pools.after {} (rs ++ more)).constants[i]? = some l) ∧
    ∀ registry limits ds p, ofDefinitions registry limits ds = .ok p →
      (∃ requests, p.constants = (Pools.after {} requests).constants) ∧
      List.Forall₂ (fun d r => r.code.fetched p.constants = d.schema.body.constants.map some)
        ds p.routines.toList ∧
      ∀ (i : Nat) l, p.constants[i]? = some l →
        p.perform (.pushConstant i) = Machine.push p.limits.stack l.toValue := by
  refine ⟨Pools.keepsConstants (Pools.size_after rs (by simp [Table.size])), fun i l hl => ?_, ?_⟩
  · rw [Pools.after_append]
    exact Pools.constants_after more hl
  · intro registry limits ds p h
    simp only [ofDefinitions, bind_eq_ok] at h
    obtain ⟨schemas, -, h⟩ := h
    split at h
    · cases h
    simp only [bind_eq_ok] at h
    obtain ⟨⟨routines, pools⟩, hall, h⟩ := h
    cases h
    obtain ⟨⟨requests, hrequests⟩, new, hnew, hfetched⟩ := Definition.fetches_of_lowerAll hall
    refine ⟨⟨requests, by rw [hrequests]; rfl⟩, ?_, fun i l hl => ?_⟩
    · rw [show routines.toList = new by simpa using hnew]
      exact hfetched
    · simp only [perform, hl]

end Program

/-! ### A literal that is written twice -/

namespace Definition

/-- A schema that is compiled from `schema f() { 0 "0" 0 }`. -/
def zeros : Definition where
  name := "f"
  schema := {
    name? := some "f"
    params := []
    returns := .void
    body := .block ⟨11, 22⟩
      [.number ⟨13, 14⟩ .zero, .string ⟨15, 18⟩ "0", .number ⟨19, 20⟩ .zero]
    span := ⟨0, 22⟩ }

def zerosRoutine : Routine where
  name := "f"
  resource? := none
  params := []
  returns := .void
  code := #[.pushConstant 0, .pop, .pushConstant 1, .pop, .pushConstant 0, .pop, .returnVoid]
  localCount := 0
  localNames := #[]

/-- The literals are pooled once. -/
def zerosLiterals : Table Literal Unit :=
  (Table.empty.insert (.number .zero) ()).insert (.string "0") ()

/-- The string is not taken for the number. -/
theorem find?_string :
    (Table.empty.insert (Literal.number .zero) ()).find? (.string "0") = none := by
  rw [Table.find?_insert_of_ne (by decide), Table.find?_empty]

theorem entries_zerosLiterals :
    zerosLiterals.entries = #[(.number .zero, ()), (.string "0", ())] := by
  rw [zerosLiterals, Table.entries_insert_of_find?_none find?_string,
    Table.entries_insert_of_find?_none Table.find?_empty]
  rfl

theorem lower_zeros (ctx : Context) : zeros.lower ctx { pools := {} } =
    .ok (zerosRoutine, ⟨⟨zerosLiterals, Table.empty⟩, Scope.empty⟩) := by
  have hfirst : Lower.literal (.number .zero) ⟨13, 14⟩ ⟨{}, Scope.empty⟩ =
      .ok (0, ⟨⟨Table.empty.insert (.number .zero) (), Table.empty⟩, Scope.empty⟩) :=
    Lower.literal_of_find?_eq_none Table.find?_empty (Nat.zero_le _)
  have hsize : (Table.empty.insert (Literal.number .zero) ()).entries.size = 1 := by
    rw [Table.entries_insert_of_find?_none Table.find?_empty]
    rfl
  have hsecond : Lower.literal (.string "0") ⟨15, 18⟩
      ⟨⟨Table.empty.insert (.number .zero) (), Table.empty⟩, Scope.empty⟩ =
        .ok (1, ⟨⟨zerosLiterals, Table.empty⟩, Scope.empty⟩) :=
    hsize ▸ Lower.literal_of_find?_eq_none (s := ⟨⟨_, _⟩, _⟩) find?_string
      (hsize ▸ (by decide : 1 ≤ maxPosition))
  have hthird : Lower.literal (.number .zero) ⟨19, 20⟩
      ⟨⟨zerosLiterals, Table.empty⟩, Scope.empty⟩ = .ok (0, ⟨⟨zerosLiterals, Table.empty⟩, _⟩) :=
    Lower.literal_of_position? (Table.position?_of_entry (by rw [entries_zerosLiterals]; rfl))
  refine Lowers.lower (.intro (d := zeros) rfl (by decide) (.statements (.literal rfl hfirst)
    (.statements (.literal rfl hsecond) (.statements (.literal rfl hthird) .noStatements)))
      (.nothing rfl)) (by decide) (by decide)

end Definition

namespace Program

def zeros : Program where
  routines := #[Definition.zerosRoutine]
  constants := #[.number .zero, .string "0"]

theorem constants_asWritten_zeros :
    ofDefinitions .empty {} [.zeros] = .ok zeros ∧
    Definition.zerosRoutine.code.fetched zeros.constants =
      [some (.number .zero), some (.string "0"), some (.number .zero)] ∧
    zeros.perform (.pushConstant 1) = Machine.push zeros.limits.stack (.string "0") := by
  have hprogram : ofDefinitions .empty {} [.zeros] = .ok zeros := by
    rw [ofDefinitions_singleton {} (Definition.lower_zeros _), Definition.entries_zerosLiterals]
    simp [zeros]
  obtain ⟨-, -, h⟩ := constants_asWritten [] []
  obtain ⟨-, hfetched, hpushed⟩ := h _ _ _ _ hprogram
  obtain ⟨hfetched, -⟩ := List.forall₂_cons.1 hfetched
  exact ⟨hprogram, hfetched, hpushed 1 (.string "0") rfl⟩

end Program

end EventScript
