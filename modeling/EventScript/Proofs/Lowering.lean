import EventScript.Program.Lowering
import EventScript.Proofs.Lookup
import EventScript.Proofs.Outcome

/-!
What lowering answers, as a relation between trees and code. A phrase is a tree together with the
place it stands in: a value for a place of a type, statements after a pending value, arguments for
parameters. The rules also list the offsets at which a statement begins or a loop looks at its
condition; every accepted tree has a derivation.
-/
namespace EventScript

/-- A tree and the place it stands in. -/
inductive Phrase where
  | expr (e : Expr)
  /-- A value for a place of a type, looked at when it arrives. -/
  | operand (expected : StaticType) (e : Expr)
  /-- A statement whose value nobody uses. -/
  | body (e : Expr)
  /-- Statements after one of type `last`, whose value is still to be dropped. -/
  | statements (last : StaticType) (es : List Expr)
  | arguments (params : List StaticType) (es : List Expr)

/-- What a tree without parts stands for. -/
def Expr.literal? : Expr → Option (StaticType × Literal)
  | .number _ n => some (.number, .number n)
  | .string _ s => some (.string, .string s)
  | .text _ markup => (RichText.parseMarkup markup).toOption.map fun t => (.text, .text t)
  | .bool _ b => some (.bool, .number (.ofBool b))
  | _ => none

/-- The trees that stand for a literal. -/
inductive Expr.IsLiteral : Expr → StaticType → Literal → Prop where
  | number {span n} : IsLiteral (.number span n) .number (.number n)
  | string {span s} : IsLiteral (.string span s) .string (.string s)
  | text {span markup t} (read : RichText.parseMarkup markup = .ok t) :
      IsLiteral (.text span markup) .text (.text t)
  | bool {span b} : IsLiteral (.bool span b) .bool (.number (.ofBool b))

theorem Expr.isLiteral_of_literal? {e : Expr} {type : StaticType} {l : Literal}
    (h : e.literal? = some (type, l)) : e.IsLiteral type l := by
  cases e with
  | text span markup =>
    simp only [literal?, Option.map_eq_some_iff] at h
    obtain ⟨t, ht, heq⟩ := h
    cases heq
    cases hread : RichText.parseMarkup markup with
    | error e => simp [hread, Except.toOption] at ht
    | ok t' =>
      rw [hread] at ht
      cases ht
      exact .text hread
  | number | string | bool =>
    cases h
    constructor
  | _ => cases h

mutual

/-- No call of the tree has been bound yet. -/
def Expr.Unbound : Expr → Prop
  | .number _ _ | .string _ _ | .text _ _ | .bool _ _ | .read _ _ => True
  | .write _ _ value => value.Unbound
  | .arithmetic _ _ left right => left.Unbound ∧ right.Unbound
  | .branch _ condition thenBody none => condition.Unbound ∧ thenBody.Unbound
  | .branch _ condition thenBody (some elseBody) =>
    condition.Unbound ∧ thenBody.Unbound ∧ elseBody.Unbound
  | .loop _ count body => count.Unbound ∧ body.Unbound
  | .each _ _ sequence body => sequence.Unbound ∧ body.Unbound
  | .block _ statements => Expr.AllUnbound statements
  | .bound _ _ _ => False
  | .call _ _ args target => target = none ∧ Expr.AllUnbound args

def Expr.AllUnbound : List Expr → Prop
  | [] => True
  | e :: es => e.Unbound ∧ Expr.AllUnbound es

end

/-- A phrase has this type and code when it is lowered for the offset `start`; the list holds the
offsets where statements begin and loops come round. -/
inductive Lowered (ctx : Context) :
    Nat → Phrase → Lowering → StaticType → Code → List Nat → Lowering → Prop where
  | literal {start e s type l i s'} (value : e.literal? = some (type, l))
      (place : Lower.literal l e.span s = .ok (i, s')) :
      Lowered ctx start (.expr e) s type #[.pushConstant i] [] s'
  | read {start span name s l} (found : s.scope.find? name = some l) :
      Lowered ctx start (.expr (.read span name)) s l.type #[.loadLocal l.slot] [] s
  | write {start span name value s type code marks s₁ l scope}
      (stored : Lowered ctx start (.operand l.type value) s type code marks s₁)
      (place : s₁.scope.declare? name type = some (l, scope)) :
      Lowered ctx start (.expr (.write span name value)) s .void
        (code ++ #[.storeLocal l.slot]) marks { s₁ with scope }
  | arithmetic {start span op left right s leftType leftCode leftMarks s₁ rightType rightCode
        rightMarks s₂}
      (first : Lowered ctx start (.operand .number left) s leftType leftCode leftMarks s₁)
      (second : Lowered ctx (start + leftCode.size) (.operand .number right) s₁ rightType rightCode
        rightMarks s₂) :
      Lowered ctx start (.expr (.arithmetic span op left right)) s .number
        (leftCode ++ rightCode ++ #[.arithmetic op]) (leftMarks ++ rightMarks) s₂
  | branch {start span condition thenBody s type test marks s₁ thenCode thenMarks s₂}
      (tested : Lowered ctx start (.operand .bool condition) s type test marks s₁)
      (taken : Lowered ctx (start + test.size + 1) (.body thenBody) s₁ .void thenCode thenMarks s₂) :
      Lowered ctx start (.expr (.branch span condition thenBody none)) s .void
        (test ++ #[.jumpIfFalse (start + test.size + 1 + thenCode.size)] ++ thenCode)
        (marks ++ thenMarks) s₂
  | branchElse {start span condition thenBody elseBody s type test marks s₁ thenCode thenMarks s₂
        elseCode elseMarks s₃}
      (tested : Lowered ctx start (.operand .bool condition) s type test marks s₁)
      (taken : Lowered ctx (start + test.size + 1) (.body thenBody) s₁ .void thenCode thenMarks s₂)
      (other : Lowered ctx (start + test.size + 1 + thenCode.size + 1) (.body elseBody) s₂ .void
        elseCode elseMarks s₃) :
      Lowered ctx start (.expr (.branch span condition thenBody (some elseBody))) s .void
        (test ++ #[.jumpIfFalse (start + test.size + 1 + thenCode.size + 1)] ++ thenCode ++
          #[.jump (start + test.size + 1 + thenCode.size + 1 + elseCode.size)] ++ elseCode)
        (marks ++ thenMarks ++ elseMarks) s₃
  | loop {start span count body s type code marks s₁ counter scope one s₂ bodyCode bodyMarks s₃}
      (counted : Lowered ctx start (.operand .number count) s type code marks s₁)
      (slot : s₁.scope.temporary? = some (counter, scope))
      (unit : Lower.literal (.number .one) span { s₁ with scope } = .ok (one, s₂))
      (repeated : Lowered ctx (start + code.size + 5) (.body body) s₂ .void bodyCode bodyMarks s₃) :
      Lowered ctx start (.expr (.loop span count body)) s .void
        (code ++ #[.storeLocal counter, .loadLocal counter, .pushConstant one, .atLeast,
            .jumpIfFalse (start + code.size + 5 + bodyCode.size + 5)] ++ bodyCode ++
          #[.loadLocal counter, .pushConstant one, .arithmetic .sub, .storeLocal counter,
            .jump (start + code.size + 1)])
        (marks ++ (start + code.size + 1) :: bodyMarks) s₃
  | each {start span name sequence body s type code marks s₁ items scope₁ index scope₂ item scope₃
        first s₂ one s₃ bodyCode bodyMarks s₄}
      (listed : Lowered ctx start (.operand .list sequence) s type code marks s₁)
      (itemsSlot : s₁.scope.temporary? = some (items, scope₁))
      (indexSlot : scope₁.temporary? = some (index, scope₂))
      (itemSlot : scope₂.declare? name .any = some (item, scope₃))
      (zero : Lower.literal (.number .zero) span { s₁ with scope := scope₃ } = .ok (first, s₂))
      (unit : Lower.literal (.number .one) span s₂ = .ok (one, s₃))
      (repeated : Lowered ctx (start + code.size + 12) (.body body) s₃ .void bodyCode bodyMarks
        s₄) :
      Lowered ctx start (.expr (.each span name sequence body)) s .void
        (code ++ #[.storeLocal items, .pushConstant first, .storeLocal index, .loadLocal index,
            .loadLocal items, .native .listSize, .lessThan,
            .jumpIfFalse (start + code.size + 12 + bodyCode.size + 5), .loadLocal items,
            .loadLocal index, .native .listGet, .storeLocal item.slot] ++ bodyCode ++
          #[.loadLocal index, .pushConstant one, .arithmetic .add, .storeLocal index,
            .jump (start + code.size + 3)])
        (marks ++ (start + code.size + 3) :: bodyMarks) s₄
  | block {start span es s type code marks s'}
      (inner : Lowered ctx start (.statements .void es) s type code marks s') :
      Lowered ctx start (.expr (.block span es)) s type code marks s'
  | call {start span name args s target code marks s₁ i s₂}
      (bound : Expr.targetOf ctx s.scope span name args none = .ok target)
      (passed : Lowered ctx start (.arguments target.params args) s .void code marks s₁)
      (made : target.lower ctx span args.length s₁ = .ok (i, s₂)) :
      Lowered ctx start (.expr (.call span name args none)) s target.returns (code ++ #[i]) marks s₂
  | operand {start expected e s type code marks s'}
      (inner : Lowered ctx start (.expr e) s type code marks s') (valued : type ≠ .void)
      (fits : expected.accepts type = true) :
      Lowered ctx start (.operand expected e) s type (code ++ expectation expected type) marks s'
  | body {start e s type code marks s'} (inner : Lowered ctx start (.expr e) s type code marks s') :
      Lowered ctx start (.body e) s .void (code ++ dropValue type) marks s'
  | noStatements {start last s} : Lowered ctx start (.statements last []) s last #[] [] s
  | statements {start last e es s type code marks s₁ type' rest marks' s₂}
      (first : Lowered ctx (start + (dropValue last).size) (.expr e) s type code marks s₁)
      (others : Lowered ctx (start + (dropValue last).size + code.size) (.statements type es) s₁
        type' rest marks' s₂) :
      Lowered ctx start (.statements last (e :: es)) s type' (dropValue last ++ code ++ rest)
        ((start + (dropValue last).size) :: marks ++ marks') s₂
  | noArguments {start s} : Lowered ctx start (.arguments [] []) s .void #[] [] s
  | arguments {start expected params e es s type code marks s₁ rest marks' s₂}
      (first : Lowered ctx start (.operand expected e) s type code marks s₁)
      (others : Lowered ctx (start + code.size) (.arguments params es) s₁ .void rest marks' s₂) :
      Lowered ctx start (.arguments (expected :: params) (e :: es)) s .void (code ++ rest)
        (marks ++ marks') s₂


/-! ### Lowering step by step -/

namespace Lower

variable {α β : Type} {s s' : Lowering} {a b : α}

theorem bind_eq_ok {x : Lower α} {f : α → Lower β} {r : β × Lowering} :
    (x >>= f) s = .ok r ↔ ∃ a s₁, x s = .ok (a, s₁) ∧ f a s₁ = .ok r := by
  change (x s >>= fun p => f p.1 p.2) = .ok r ↔ _
  cases h : x s with
  | error e => simp [bind, Except.bind]
  | ok p =>
    obtain ⟨a, s₁⟩ := p
    simp only [bind, Except.bind, Except.ok.injEq, Prod.mk.injEq]
    constructor
    · intro h
      exact ⟨a, s₁, ⟨rfl, rfl⟩, h⟩
    · rintro ⟨_, _, ⟨rfl, rfl⟩, h⟩
      exact h

theorem pure_apply : (pure a : Lower α) s = .ok (a, s) := rfl

theorem pure_eq_ok : (pure a : Lower α) s = .ok (b, s') ↔ b = a ∧ s' = s := by
  change (Except.ok (a, s) : Compiled _) = .ok (b, s') ↔ _
  simp [eq_comm]

theorem lift_eq_ok {x : Compiled α} :
    (liftM x : Lower α) s = .ok (a, s') ↔ x = .ok a ∧ s' = s := by
  change (x >>= fun a => .ok (a, s) : Compiled (α × Lowering)) = .ok (a, s') ↔ _
  cases x with
  | error e => simp [bind, Except.bind]
  | ok b => simp [bind, Except.bind, eq_comm]

theorem get_eq_ok {t : Lowering} : (get : Lower Lowering) s = .ok (t, s') ↔ t = s ∧ s' = s := by
  change (Except.ok (s, s) : Compiled _) = .ok (t, s') ↔ _
  simp [eq_comm]

theorem ite_eq_ok {c : Prop} [Decidable c] {x y : Lower α} {r : α × Lowering} :
    (if c then x else y) s = .ok r ↔ c ∧ x s = .ok r ∨ ¬c ∧ y s = .ok r := by
  split <;> simp_all

theorem find?_eq_ok {name : String} {l : Option Local} :
    find? name s = .ok (l, s') ↔ l = s.scope.find? name ∧ s' = s := by
  simp [find?, eq_comm]

theorem temporary_eq_ok {span : Span} {slot : Nat} :
    temporary span s = .ok (slot, s') ↔
      ∃ scope, s.scope.temporary? = some (slot, scope) ∧ s' = { s with scope } := by
  obtain ⟨pools, scope⟩ := s
  simp only [temporary]
  split
  · rename_i k scope' h
    simp only [h, Except.ok.injEq, Prod.mk.injEq, Option.some.injEq]
    constructor
    · rintro ⟨rfl, rfl⟩
      exact ⟨scope', ⟨rfl, rfl⟩, rfl⟩
    · rintro ⟨_, ⟨rfl, rfl⟩, rfl⟩
      exact ⟨rfl, rfl⟩
  · rename_i h
    simp [h, refuse]

theorem declare_eq_ok {name : String} {type : StaticType} {span : Span} {slot : Nat} :
    declare name type span s = .ok (slot, s') ↔
      ∃ l scope, s.scope.declare? name type = some (l, scope) ∧ slot = l.slot ∧
        s' = { s with scope } := by
  obtain ⟨pools, scope⟩ := s
  simp only [declare]
  split
  · rename_i l scope' h
    simp only [h, Except.ok.injEq, Prod.mk.injEq, Option.some.injEq]
    constructor
    · rintro ⟨rfl, rfl⟩
      exact ⟨l, scope', ⟨rfl, rfl⟩, rfl, rfl⟩
    · rintro ⟨_, _, ⟨rfl, rfl⟩, rfl, rfl⟩
      exact ⟨rfl, rfl⟩
  · rename_i h
    simp [h, refuse]

end Lower

theorem pure_compiled {α : Type} {a : α} : (pure a : Compiled α) = .ok a := rfl

theorem refuse_eq_ok {α : Type} {c : CompileError.Complaint} {span : Span} {a : α} :
    refuse c span = .ok a ↔ False := by
  simp [refuse]

theorem checkOffset_eq_ok {n : Nat} {u : Unit} : checkOffset n = .ok u ↔ n ≤ maxPosition := by
  unfold checkOffset
  split
  · rename_i h
    simp [h]
  · rename_i h
    simp [h, refuse]

theorem numberExpectation_eq_ok {what : String} {type : StaticType} {span : Span} {check : Code} :
    numberExpectation what type span = .ok check ↔
      StaticType.number.accepts type = true ∧ check = expectation .number type := by
  unfold numberExpectation
  split
  · rename_i h
    simp [h, eq_comm]
  · rename_i h
    simp [h, refuse]

namespace StaticType

theorem accepts_self (t : StaticType) : t.accepts t = true := by
  simp [accepts]

/-- No value is of type `void` where a value of another keyword's type is wanted. -/
theorem ne_void_of_accepts {expected type : StaticType} (h : expected.accepts type = true)
    (he : expected ∈ [.number, .bool, .list]) : type ≠ .void := by
  rintro rfl
  revert h
  simp only [List.mem_cons, List.not_mem_nil, or_false] at he
  rcases he with rfl | rfl | rfl <;> decide

end StaticType

/-- A value that has the type of its place is never looked at. -/
theorem expectation_self (t : StaticType) : expectation t t = #[] := by
  unfold expectation
  split
  · rename_i h
    subst h
    rfl
  · rfl


namespace Lowered

variable {ctx : Context} {start : Nat} {s s' : Lowering} {type : StaticType} {code : Code}
  {marks : List Nat} {expected : StaticType} {e : Expr}

theorem of_eq {phrase : Phrase} {code' : Code} (h : Lowered ctx start phrase s type code marks s')
    (hcode : code = code') : Lowered ctx start phrase s type code' marks s' := hcode ▸ h

/-- An operand at a place where its acceptance says that it is a value. -/
theorem operand_of_accepts (h : Lowered ctx start (.expr e) s type code marks s')
    (fits : expected.accepts type = true) (he : expected ∈ [.number, .bool, .list]) :
    Lowered ctx start (.operand expected e) s type (code ++ expectation expected type) marks s' :=
  .operand h (StaticType.ne_void_of_accepts fits he) fits

end Lowered

namespace Expr

variable {ctx : Context}

/-! ### When a tree is lowered -/

section

variable {start : Nat} {span : Span} {name : String} {s s' : Lowering} {type : StaticType}
  {code : Code}

theorem lower_literal_eq_ok {e : Expr} {t : StaticType} {l : Literal}
    (value : e.literal? = some (t, l)) : e.lower ctx start s = .ok ((type, code), s') ↔
      type = t ∧ ∃ i, Lower.literal l e.span s = .ok (i, s') ∧ code = #[.pushConstant i] := by
  have hpushed {t : StaticType} {l : Literal} {span : Span} :
      (do return (t, ← Lower.pushLiteral l span) : Lower (StaticType × Code)) s =
        .ok ((type, code), s') ↔
      type = t ∧ ∃ i, Lower.literal l span s = .ok (i, s') ∧ code = #[.pushConstant i] := by
    simp only [Lower.pushLiteral, Lower.bind_eq_ok, Lower.pure_eq_ok, Prod.mk.injEq]
    constructor
    · rintro ⟨_, _, ⟨i, s', hi, rfl, rfl⟩, ⟨rfl, rfl⟩, rfl⟩
      exact ⟨rfl, i, hi, rfl⟩
    · rintro ⟨rfl, i, hi, rfl⟩
      exact ⟨_, _, ⟨i, s', hi, rfl, rfl⟩, ⟨rfl, rfl⟩, rfl⟩
  cases Expr.isLiteral_of_literal? value with
  | number | string | bool => exact hpushed
  | text read =>
    simp only [lower, read]
    exact hpushed

theorem exists_literal_of_lower_text {markup : String}
    (h : (Expr.text span markup).lower ctx start s = .ok ((type, code), s')) :
    ∃ t, (Expr.text span markup).literal? = some (.text, .text t) := by
  cases hread : RichText.parseMarkup markup with
  | ok t => exact ⟨t, by simp [literal?, hread, Except.toOption]⟩
  | error e =>
    simp only [lower, hread] at h
    exact (refuse_eq_ok.1 (Lower.lift_eq_ok.1 h).1).elim

theorem lower_read_eq_ok : (Expr.read span name).lower ctx start s = .ok ((type, code), s') ↔
    ∃ l, s.scope.find? name = some l ∧ type = l.type ∧ code = #[.loadLocal l.slot] ∧ s' = s := by
  simp only [lower, Lower.bind_eq_ok, Lower.find?_eq_ok]
  constructor
  · rintro ⟨_, t, ⟨rfl, rfl⟩, h⟩
    cases hf : t.scope.find? name with
    | none => simp only [hf, Lower.lift_eq_ok, refuse_eq_ok, false_and] at h
    | some l =>
      simp only [hf, Lower.pure_eq_ok, Prod.mk.injEq] at h
      obtain ⟨⟨rfl, rfl⟩, rfl⟩ := h
      exact ⟨l, rfl, rfl, rfl, rfl⟩
  · rintro ⟨l, hf, rfl, rfl, rfl⟩
    refine ⟨_, s', ⟨rfl, rfl⟩, ?_⟩
    rw [hf]
    rfl

/-- A variable that is new gets the type of its value, which is not looked at. -/
theorem lower_write_eq_ok {value : Expr} :
    (Expr.write span name value).lower ctx start s = .ok ((type, code), s') ↔
      ∃ found before s₁ l scope, value.lower ctx start s = .ok ((found, before), s₁) ∧
        found ≠ .void ∧ s₁.scope.declare? name found = some (l, scope) ∧
        l.type.accepts found = true ∧ type = .void ∧
        code = before ++ expectation l.type found ++ #[.storeLocal l.slot] ∧
        s' = { s₁ with scope } := by
  simp only [lower, Lower.bind_eq_ok, Lower.ite_eq_ok, Lower.find?_eq_ok, Lower.lift_eq_ok,
    refuse_eq_ok, false_and, and_false, exists_false, false_or]
  constructor
  · rintro ⟨⟨found, before⟩, _, hv, hvoid, _, s₁, ⟨rfl, rfl⟩, h⟩
    cases hf : s₁.scope.find? name with
    | none =>
      simp only [hf, Lower.bind_eq_ok, Lower.pure_eq_ok, Lower.declare_eq_ok] at h
      obtain ⟨_, s₁, ⟨rfl, rfl⟩, _, _, ⟨l, scope, hl, rfl, rfl⟩, h, rfl⟩ := h
      cases h
      have ht := Scope.type_of_declare? hl hf
      refine ⟨found, before, s₁, l, scope, hv, hvoid, hl, ?_, rfl, ?_, rfl⟩
      · rw [ht]
        exact StaticType.accepts_self _
      · rw [ht, expectation_self]
    | some k =>
      simp only [hf, Lower.ite_eq_ok, Lower.bind_eq_ok, Lower.pure_eq_ok, Lower.declare_eq_ok,
        Lower.lift_eq_ok, refuse_eq_ok, false_and, and_false, exists_false, or_false] at h
      obtain ⟨hfits, _, s₁, ⟨rfl, rfl⟩, _, _, ⟨l, scope, hl, rfl, rfl⟩, h, rfl⟩ := h
      cases h
      have hk : l = k := by
        rcases Scope.declare?_eq_some_iff.1 hl with ⟨h, _⟩ | ⟨h, _⟩
        · rw [hf] at h
          exact (Option.some.inj h).symm
        · rw [hf] at h
          cases h
      subst hk
      exact ⟨found, before, s₁, l, scope, hv, hvoid, hl, hfits, rfl, rfl, rfl⟩
  · rintro ⟨found, before, s₁, l, scope, hv, hvoid, hl, hfits, rfl, rfl, rfl⟩
    refine ⟨(found, before), s₁, hv, hvoid, _, _, ⟨rfl, rfl⟩, ?_⟩
    have hdeclare := (@Lower.declare_eq_ok _ _ _ _ span _).2 ⟨_, _, hl, rfl, rfl⟩
    rcases Scope.declare?_eq_some_iff.1 hl with ⟨hf, _⟩ | ⟨hf, _, rfl, _⟩
    · simp only [hf, hfits, if_true, Lower.bind_eq_ok]
      exact ⟨_, _, rfl, _, _, hdeclare, rfl⟩
    · simp only [hf, expectation_self, Lower.bind_eq_ok]
      exact ⟨_, _, rfl, _, _, hdeclare, rfl⟩

end

mutual

/-- What lowering answers has a derivation. -/
theorem lowered_of_lower : ∀ (e : Expr) {start : Nat} {s s' : Lowering} {type : StaticType}
    {code : Code}, e.Unbound → e.lower ctx start s = .ok ((type, code), s') →
      ∃ marks, Lowered ctx start (.expr e) s type code marks s'
  | .number _ _, _, _, _, _, _, _, h | .string _ _, _, _, _, _, _, _, h
  | .bool _ _, _, _, _, _, _, _, h => by
    obtain ⟨rfl, i, hi, rfl⟩ := (lower_literal_eq_ok rfl).1 h
    exact ⟨[], .literal rfl hi⟩
  | .text _ _, _, _, _, _, _, _, h => by
    obtain ⟨t, value⟩ := exists_literal_of_lower_text h
    obtain ⟨rfl, i, hi, rfl⟩ := (lower_literal_eq_ok value).1 h
    exact ⟨[], .literal value hi⟩
  | .read _ _, _, _, _, _, _, _, h => by
    obtain ⟨l, hl, rfl, rfl, rfl⟩ := lower_read_eq_ok.1 h
    exact ⟨[], .read hl⟩
  | .write span name value, start, s, s', type, code, hu, h => by
    obtain ⟨found, before, s₁, l, scope, hv, hvoid, hl, hfits, rfl, rfl, rfl⟩ :=
      lower_write_eq_ok.1 h
    obtain ⟨marks, hv⟩ := lowered_of_lower value hu hv
    exact ⟨marks, .write (.operand hv hvoid hfits) hl⟩
  | .arithmetic span op left right, start, s, s', type, code, hu, h => by
    simp only [Expr.lower, Lower.bind_eq_ok, Lower.lift_eq_ok, Lower.pure_eq_ok,
      numberExpectation_eq_ok, Prod.mk.injEq] at h
    obtain ⟨⟨lt, lc⟩, s₁, hl, _, _, ⟨⟨hla, rfl⟩, rfl⟩, ⟨rt, rc⟩, s₂, hr, _, _, ⟨⟨hra, rfl⟩, rfl⟩,
      ⟨rfl, rfl⟩, rfl⟩ := h
    obtain ⟨lm, hl⟩ := lowered_of_lower left hu.1 hl
    obtain ⟨rm, hr⟩ := lowered_of_lower right hu.2 hr
    exact ⟨_, .of_eq (.arithmetic (hl.operand_of_accepts hla (by simp))
      (hr.operand_of_accepts hra (by simp))) (by simp [Array.append_assoc])⟩
  | .branch span condition thenBody none, start, s, s', type, code, hu, h => by
    simp only [Expr.lower, Lower.bind_eq_ok, Lower.ite_eq_ok, Lower.lift_eq_ok, Lower.pure_eq_ok,
      refuse_eq_ok, checkOffset_eq_ok, false_and, and_false, exists_false, false_or,
      Prod.mk.injEq] at h
    obtain ⟨⟨ct, cc⟩, s₁, hc, hfits, ⟨tt, tc⟩, s₂, ht, _, _, ⟨_, rfl⟩, ⟨rfl, rfl⟩, rfl⟩ := h
    obtain ⟨cm, hc⟩ := lowered_of_lower condition hu.1 hc
    obtain ⟨tm, ht⟩ := lowered_of_lower thenBody hu.2 ht
    exact ⟨_, .branch (hc.operand_of_accepts (by simpa using hfits) (by simp)) (.body ht)⟩
  | .branch span condition thenBody (some elseBody), start, s, s', type, code, hu, h => by
    simp only [Expr.lower, Lower.bind_eq_ok, Lower.ite_eq_ok, Lower.lift_eq_ok, Lower.pure_eq_ok,
      refuse_eq_ok, checkOffset_eq_ok, false_and, and_false, exists_false, false_or,
      Prod.mk.injEq] at h
    obtain ⟨⟨ct, cc⟩, s₁, hc, hfits, ⟨tt, tc⟩, s₂, ht, _, _, ⟨_, rfl⟩, ⟨et, ec⟩, s₃, he, _, _,
      ⟨_, rfl⟩, ⟨rfl, rfl⟩, rfl⟩ := h
    obtain ⟨cm, hc⟩ := lowered_of_lower condition hu.1 hc
    obtain ⟨tm, ht⟩ := lowered_of_lower thenBody hu.2.1 ht
    obtain ⟨em, he⟩ := lowered_of_lower elseBody hu.2.2 he
    exact ⟨_, .branchElse (hc.operand_of_accepts (by simpa using hfits) (by simp)) (.body ht)
      (.body he)⟩
  | .loop span count body, start, s, s', type, code, hu, h => by
    simp only [Expr.lower, Lower.bind_eq_ok, Lower.lift_eq_ok, Lower.pure_eq_ok,
      Lower.temporary_eq_ok, numberExpectation_eq_ok, checkOffset_eq_ok, Prod.mk.injEq] at h
    obtain ⟨⟨ct, cc⟩, s₁, hc, _, _, ⟨⟨hfits, rfl⟩, rfl⟩, counter, _, ⟨scope, hslot, rfl⟩, one, s₂,
      hone, _, _, ⟨_, rfl⟩, ⟨bt, bc⟩, s₃, hb, _, _, ⟨_, rfl⟩, ⟨rfl, rfl⟩, rfl⟩ := h
    obtain ⟨cm, hc⟩ := lowered_of_lower count hu.1 hc
    obtain ⟨bm, hb⟩ := lowered_of_lower body hu.2 hb
    exact ⟨_, .of_eq (.loop (hc.operand_of_accepts hfits (by simp)) hslot hone
      (.body (by simpa [Nat.add_assoc] using hb))) (by simp [Array.append_assoc, Nat.add_assoc])⟩
  | .each span name sequence body, start, s, s', type, code, hu, h => by
    simp only [Expr.lower, Lower.bind_eq_ok, Lower.ite_eq_ok, Lower.lift_eq_ok, Lower.pure_eq_ok,
      Lower.temporary_eq_ok, Lower.declare_eq_ok, refuse_eq_ok, checkOffset_eq_ok, false_and,
      and_false, exists_false, false_or, Prod.mk.injEq] at h
    obtain ⟨⟨ct, cc⟩, s₁, hc, hfits, items, _, ⟨scope₁, hitems, rfl⟩, index, _,
      ⟨scope₂, hindex, rfl⟩, _, _, ⟨item, scope₃, hitem, rfl, rfl⟩, first, s₂, hfirst, one, s₃,
      hone, _, _, ⟨_, rfl⟩, ⟨bt, bc⟩, s₄, hb, _, _, ⟨_, rfl⟩, ⟨rfl, rfl⟩, rfl⟩ := h
    obtain ⟨cm, hc⟩ := lowered_of_lower sequence hu.1 hc
    obtain ⟨bm, hb⟩ := lowered_of_lower body hu.2 hb
    exact ⟨_, .of_eq (.each (hc.operand_of_accepts (by simpa using hfits) (by simp)) hitems hindex
      hitem hfirst hone (.body (by simpa [Nat.add_assoc] using hb)))
      (by simp [Array.append_assoc, Nat.add_assoc])⟩
  | .block span statements, start, s, s', type, code, hu, h => by
    rw [Expr.lower] at h
    obtain ⟨rest, marks, rfl, hes⟩ := lowered_of_lowerStatements statements hu h
    exact ⟨marks, .block (by simpa using hes)⟩
  | .bound _ _ _, _, _, _, _, _, hu, _ => hu.elim
  | .call span name args target, start, s, s', type, code, hu, h => by
    obtain ⟨rfl, hu⟩ := hu
    simp only [Expr.lower, Lower.bind_eq_ok, Lower.ite_eq_ok, Lower.lift_eq_ok, Lower.get_eq_ok,
      Lower.pure_eq_ok, refuse_eq_ok, false_and, and_false, exists_false, false_or,
      Prod.mk.injEq] at h
    obtain ⟨_, _, ⟨rfl, rfl⟩, target, _, ⟨hbound, rfl⟩, hlen, before, s₁, h, i, s₂, hi,
      ⟨rfl, rfl⟩, rfl⟩ := h
    obtain ⟨rest, marks, rfl, hargs⟩ := lowered_of_lowerArguments target.params args hu
      (by simpa using hlen) h
    exact ⟨marks, .of_eq (.call hbound (by simpa using hargs) hi) (by simp)⟩

theorem lowered_of_lowerStatements : ∀ (es : List Expr) {start : Nat} {last : StaticType}
    {before : Code} {s s' : Lowering} {type : StaticType} {code : Code}, AllUnbound es →
      lowerStatements ctx start last before es s = .ok ((type, code), s') →
        ∃ rest marks, code = before ++ rest ∧
          Lowered ctx (start + before.size) (.statements last es) s type rest marks s'
  | [], start, last, before, s, s', type, code, _, h => by
    simp only [lowerStatements, Lower.pure_eq_ok, Prod.mk.injEq] at h
    obtain ⟨⟨rfl, rfl⟩, rfl⟩ := h
    exact ⟨#[], [], by simp, .noStatements⟩
  | e :: es, start, last, before, s, s', type, code, hu, h => by
    simp only [lowerStatements, Lower.bind_eq_ok] at h
    obtain ⟨⟨eType, eCode⟩, s₁, he, h⟩ := h
    obtain ⟨marks, he⟩ := lowered_of_lower e hu.1 he
    obtain ⟨rest, marks', rfl, hes⟩ := lowered_of_lowerStatements es hu.2 h
    refine ⟨dropValue last ++ eCode ++ rest, (start + before.size + (dropValue last).size) :: marks ++
      marks', by simp only [Array.append_assoc], ?_⟩
    exact .statements (by simpa [Nat.add_assoc] using he) (by simpa [Nat.add_assoc] using hes)

theorem lowered_of_lowerArguments : ∀ (params : List StaticType) (es : List Expr) {start : Nat}
    {before : Code} {s s' : Lowering} {code : Code}, AllUnbound es → es.length = params.length →
      lowerArguments ctx start before params es s = .ok (code, s') →
        ∃ rest marks, code = before ++ rest ∧
          Lowered ctx (start + before.size) (.arguments params es) s .void rest marks s'
  | [], [], start, before, s, s', code, _, _, h => by
    simp only [lowerArguments, Lower.pure_eq_ok] at h
    obtain ⟨rfl, rfl⟩ := h
    exact ⟨#[], [], by simp, .noArguments⟩
  | [], _ :: _, _, _, _, _, _, _, hlen, _ => by cases hlen
  | _ :: _, [], _, _, _, _, _, _, hlen, _ => by cases hlen
  | expected :: params, e :: es, start, before, s, s', code, hu, hlen, h => by
    simp only [lowerArguments, Lower.bind_eq_ok, Lower.ite_eq_ok, Lower.lift_eq_ok, refuse_eq_ok,
      false_and, and_false, exists_false, false_or] at h
    obtain ⟨⟨type, eCode⟩, s₁, he, hvoid, hfits, h⟩ := h
    obtain ⟨marks, he⟩ := lowered_of_lower e hu.1 he
    obtain ⟨rest, marks', rfl, hes⟩ := lowered_of_lowerArguments params es hu.2
      (by simpa using hlen) h
    refine ⟨eCode ++ expectation expected type ++ rest, marks ++ marks',
      by simp only [Array.append_assoc], ?_⟩
    exact .arguments (.operand he hvoid (by simpa using hfits))
      (by simpa [Nat.add_assoc] using hes)

end

end Expr

end EventScript
