import EventScript.Callable
import EventScript.Proofs.Lists

/-!
Code refers to literals, callbacks and schemas by their positions. Routines of two programs are
alike if they are the same once every position is replaced by what stands there.
-/
namespace EventScript

/-- An instruction with what it refers to in place of a position. -/
inductive NamedInstruction where
  | constant (l : Literal)
  | host (call : HostFunction) (argc : Nat) (returns : Bool)
  | schema (name : String) (argc : Nat) (returns : Bool)
  /-- An instruction that refers to nothing outside its routine. -/
  | plain (i : Instruction)

namespace Program

/-- What an instruction of the program stands for, if its position exists. -/
def named? (p : Program) : Instruction → Option NamedInstruction
  | .pushConstant i => (p.constants[i]?).map .constant
  | .invokeHost i argc returns => (p.hosts[i]?).map (.host · argc returns)
  | .call i argc returns => (p.routines[i]?).map (.schema ·.name argc returns)
  | i => some (.plain i)

/-- The code of a routine without positions. -/
def listing? (p : Program) (r : Routine) : Option (List NamedInstruction) :=
  r.code.toList.mapM p.named?

end Program

/-- The same routine in two programs, positions aside. -/
structure Routine.Alike (p p' : Program) (r r' : Routine) : Prop where
  name : r.name = r'.name
  resource : r.resource? = r'.resource?
  params : r.params = r'.params
  returns : r.returns = r'.returns
  localCount : r.localCount = r'.localCount
  localNames : r.localNames = r'.localNames
  listing : ∃ is, p.listing? r = some is ∧ p'.listing? r' = some is

/-- Routines of one name are the same, positions aside. -/
structure Program.Alike (p p' : Program) : Prop where
  limits : p.limits = p'.limits
  routine : ∀ {i j : Nat} {r r' : Routine}, p.routines[i]? = some r → p'.routines[j]? = some r' →
    r.name = r'.name → r.Alike p p' r'

theorem mapM_eq_some_iff {α β : Type} {f : α → Option β} {as : List α} {bs : List β} :
    as.mapM f = some bs ↔ List.Forall₂ (fun a b => f a = some b) as bs := by
  induction as generalizing bs with
  | nil =>
    cases bs with
    | nil => simp
    | cons b bs => exact iff_of_false (by simp) nofun
  | cons a as ih =>
    cases bs with
    | nil => exact iff_of_false (by simp [List.mapM_cons, Option.bind_eq_some_iff]) nofun
    | cons b bs => simp [List.mapM_cons, Option.bind_eq_some_iff, ih]

/-! ### Instructions -/

/-- The instruction refers to nothing outside its routine. -/
def Instruction.IsPlain : Instruction → Prop
  | .pushConstant _ | .invokeHost _ _ _ | .call _ _ _ => False
  | _ => True

/-- What an instruction of the program stands for. -/
inductive Program.Names (p : Program) : Instruction → NamedInstruction → Prop where
  | constant {i : Nat} {l : Literal} (found : p.constants[i]? = some l) :
      Names p (.pushConstant i) (.constant l)
  | host {i argc : Nat} {returns : Bool} {call : HostFunction} (found : p.hosts[i]? = some call) :
      Names p (.invokeHost i argc returns) (.host call argc returns)
  | schema {i argc : Nat} {returns : Bool} {r : Routine} (found : p.routines[i]? = some r) :
      Names p (.call i argc returns) (.schema r.name argc returns)
  | plain {i : Instruction} (plain : i.IsPlain) : Names p i (.plain i)

theorem Program.named?_eq_some_iff {p : Program} {i : Instruction} {n : NamedInstruction} :
    p.named? i = some n ↔ p.Names i n := by
  constructor
  · intro h
    cases i with
    | pushConstant =>
      obtain ⟨l, hl, rfl⟩ := Option.map_eq_some_iff.1 h
      exact .constant hl
    | invokeHost =>
      obtain ⟨call, hcall, rfl⟩ := Option.map_eq_some_iff.1 h
      exact .host hcall
    | call =>
      obtain ⟨r, hr, rfl⟩ := Option.map_eq_some_iff.1 h
      exact .schema hr
    | _ =>
      cases h
      exact .plain trivial
  · rintro (found | found | found | plain)
    · exact congrArg (Option.map _) found
    · exact congrArg (Option.map _) found
    · exact congrArg (Option.map _) found
    · cases i <;> first | rfl | exact plain.elim

/-- Instructions of two programs that stand for the same. -/
inductive Instruction.Alike (p p' : Program) : Instruction → Instruction → Prop where
  | constant {i j : Nat} {l : Literal} (left : p.constants[i]? = some l)
      (right : p'.constants[j]? = some l) : Alike p p' (.pushConstant i) (.pushConstant j)
  | host {i j argc : Nat} {returns : Bool} {call : HostFunction} (left : p.hosts[i]? = some call)
      (right : p'.hosts[j]? = some call) :
      Alike p p' (.invokeHost i argc returns) (.invokeHost j argc returns)
  | schema {i j argc : Nat} {returns : Bool} {r r' : Routine} (left : p.routines[i]? = some r)
      (right : p'.routines[j]? = some r') (name : r.name = r'.name) :
      Alike p p' (.call i argc returns) (.call j argc returns)
  | plain {i : Instruction} (plain : i.IsPlain) : Alike p p' i i

section

variable {p p' : Program}

theorem Instruction.alike_iff {i i' : Instruction} :
    i.Alike p p' i' ↔ ∃ n, p.named? i = some n ∧ p'.named? i' = some n := by
  simp only [Program.named?_eq_some_iff]
  constructor
  · rintro (⟨left, right⟩ | ⟨left, right⟩ | ⟨left, right, name⟩ | plain)
    · exact ⟨_, .constant left, .constant right⟩
    · exact ⟨_, .host left, .host right⟩
    · exact ⟨_, .schema left, name ▸ .schema right⟩
    · exact ⟨_, .plain plain, .plain plain⟩
  · rintro ⟨n, h, h'⟩
    cases h with
    | constant left =>
      cases h' with
      | constant right => exact .constant left right
    | host left =>
      cases h' with
      | host right => exact .host left right
    | schema left =>
      generalize hname : Routine.name _ = name at h'
      cases h' with
      | schema right => exact .schema left right hname
    | plain plain =>
      cases h' with
      | plain _ => exact .plain plain

theorem exists_listing_iff {r r' : Routine} :
    (∃ is, p.listing? r = some is ∧ p'.listing? r' = some is) ↔
      List.Forall₂ (Instruction.Alike p p') r.code.toList r'.code.toList := by
  simp only [Program.listing?, mapM_eq_some_iff]
  generalize r.code.toList = code, r'.code.toList = code'
  constructor
  · rintro ⟨is, h, h'⟩
    induction h generalizing code' with
    | nil =>
      cases h'
      exact .nil
    | cons left _ ih =>
      cases h' with
      | cons right h' => exact .cons (Instruction.alike_iff.2 ⟨_, left, right⟩) (ih _ h')
  · intro h
    induction h with
    | nil => exact ⟨[], .nil, .nil⟩
    | cons alike _ ih =>
      obtain ⟨n, left, right⟩ := Instruction.alike_iff.1 alike
      obtain ⟨is, h, h'⟩ := ih
      exact ⟨n :: is, .cons left h, .cons right h'⟩

namespace Routine.Alike

variable {r r' : Routine}

/-- At any offset both routines end, or go on with instructions that stand for the same. -/
theorem instruction (h : r.Alike p p' r') (next : Nat) :
    (r.code[next]? = none ∧ r'.code[next]? = none) ∨
      ∃ i i', r.code[next]? = some i ∧ r'.code[next]? = some i' ∧ i.Alike p p' i' := by
  have hcode := exists_listing_iff.1 h.listing
  simp only [← Array.getElem?_toList]
  cases hi : r.code.toList[next]? with
  | none =>
    rw [List.getElem?_eq_none_iff, hcode.length_eq, ← List.getElem?_eq_none_iff] at hi
    exact .inl ⟨rfl, hi⟩
  | some i =>
    obtain ⟨i', hi', halike⟩ := exists_getElem?_of_forall₂ hcode hi
    exact .inr ⟨i, i', rfl, hi', halike⟩

theorem checkArguments_eq (h : r.Alike p p' r') (args : List Value) :
    r.checkArguments args = r'.checkArguments args := by
  rw [Routine.checkArguments, Routine.checkArguments, h.params, h.name]

end Routine.Alike

end

end EventScript
