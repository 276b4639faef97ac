import EventScript.Proofs.Lowering.Layout
import EventScript.Proofs.Registry
import EventScript.Proofs.Shape
import EventScript.Proofs.SourceTree

/-!
Lowered code goes from shape to shape as its tree says: an expression leaves one operand, or none if
its type is void, and takes nothing from those it finds. Trees that are no source texts can have
statements where operands stand; then only the number of operands is tracked.
-/
namespace EventScript

namespace Expr

mutual

/-- Every name that is read and every loop variable has the property for it. -/
def Respects (reads loops : String → Prop) : Expr → Prop
  | .number _ _ | .string _ _ | .text _ _ | .bool _ _ => True
  | .read _ name => reads name
  | .write _ _ value => value.Respects reads loops
  | .arithmetic _ _ left right => left.Respects reads loops ∧ right.Respects reads loops
  | .branch _ condition thenBody none =>
    condition.Respects reads loops ∧ thenBody.Respects reads loops
  | .branch _ condition thenBody (some elseBody) => condition.Respects reads loops ∧
    thenBody.Respects reads loops ∧ elseBody.Respects reads loops
  | .loop _ count body => count.Respects reads loops ∧ body.Respects reads loops
  | .each _ name sequence body =>
    loops name ∧ sequence.Respects reads loops ∧ body.Respects reads loops
  | .block _ statements => AllRespect reads loops statements
  | .bound _ _ args | .call _ _ args _ => AllRespect reads loops args

def AllRespect (reads loops : String → Prop) : List Expr → Prop
  | [] => True
  | e :: es => e.Respects reads loops ∧ AllRespect reads loops es

end

mutual

theorem Respects.imp {reads loops reads' loops' : String → Prop} (hr : ∀ name, reads name → reads' name)
    (hl : ∀ name, loops name → loops' name) :
    ∀ e : Expr, e.Respects reads loops → e.Respects reads' loops'
  | .number _ _, _ | .string _ _, _ | .text _ _, _ | .bool _ _, _ => trivial
  | .read _ name, h => hr name h
  | .write _ _ value, h => Respects.imp (e := value) hr hl h
  | .arithmetic _ _ left right, h =>
    ⟨Respects.imp hr hl left h.1, Respects.imp hr hl right h.2⟩
  | .branch _ condition thenBody none, h =>
    ⟨Respects.imp hr hl condition h.1, Respects.imp hr hl thenBody h.2⟩
  | .branch _ condition thenBody (some elseBody), h => ⟨Respects.imp hr hl condition h.1,
    Respects.imp hr hl thenBody h.2.1, Respects.imp hr hl elseBody h.2.2⟩
  | .loop _ count body, h => ⟨Respects.imp hr hl count h.1, Respects.imp hr hl body h.2⟩
  | .each _ name sequence body, h =>
    ⟨hl name h.1, Respects.imp hr hl sequence h.2.1, Respects.imp hr hl body h.2.2⟩
  | .block _ statements, h => AllRespect.imp hr hl statements h
  | .bound _ _ args, h | .call _ _ args _, h => AllRespect.imp hr hl args h

theorem AllRespect.imp {reads loops reads' loops' : String → Prop}
    (hr : ∀ name, reads name → reads' name) (hl : ∀ name, loops name → loops' name) :
    ∀ es : List Expr, AllRespect reads loops es → AllRespect reads' loops' es
  | [], _ => trivial
  | e :: es, h => ⟨Respects.imp hr hl e h.1, AllRespect.imp hr hl es h.2⟩

end

mutual

theorem respects_of_forall {reads loops : String → Prop} (hr : ∀ name, reads name)
    (hl : ∀ name, loops name) : ∀ e : Expr, e.Respects reads loops
  | .number _ _ | .string _ _ | .text _ _ | .bool _ _ => trivial
  | .read _ name => hr name
  | .write _ _ value => respects_of_forall (e := value) hr hl
  | .arithmetic _ _ left right => ⟨respects_of_forall hr hl left, respects_of_forall hr hl right⟩
  | .branch _ condition thenBody none =>
    ⟨respects_of_forall hr hl condition, respects_of_forall hr hl thenBody⟩
  | .branch _ condition thenBody (some elseBody) => ⟨respects_of_forall hr hl condition,
    respects_of_forall hr hl thenBody, respects_of_forall hr hl elseBody⟩
  | .loop _ count body => ⟨respects_of_forall hr hl count, respects_of_forall hr hl body⟩
  | .each _ name sequence body =>
    ⟨hl name, respects_of_forall hr hl sequence, respects_of_forall hr hl body⟩
  | .block _ statements => allRespect_of_forall hr hl statements
  | .bound _ _ args | .call _ _ args _ => allRespect_of_forall hr hl args

theorem allRespect_of_forall {reads loops : String → Prop} (hr : ∀ name, reads name)
    (hl : ∀ name, loops name) : ∀ es : List Expr, AllRespect reads loops es
  | [] => trivial
  | e :: es => ⟨respects_of_forall hr hl e, allRespect_of_forall hr hl es⟩

end

end Expr

namespace Phrase

def Respects (reads loops : String → Prop) : Phrase → Prop
  | .expr e | .operand _ e | .body e => e.Respects reads loops
  | .statements _ es | .arguments _ es => Expr.AllRespect reads loops es

/-- The tree is that of a source text, and statements find no operands. -/
def Structured : Phrase → StaticType → Shape → Prop
  | .expr e, type, σ => e.IsFlat ∧ type ≠ .void ∨ e.IsStatement ∧ σ = []
  | .operand _ e, _, _ => e.IsFlat
  | .body e, _, σ => e.IsStatement ∧ σ = []
  | .statements _ es, _, σ => Expr.AllStatements es ∧ σ = []
  | .arguments _ es, _, _ => Expr.AllFlat es

end Phrase

namespace View

variable (V : View)

/-- Only the number of operands is tracked. -/
structure Blind : Prop where
  kinds : V.kinds = false
  exact : V.exact = false

/-- Where a phrase may stand: anywhere if nothing but the number of operands is tracked. -/
def Placed (phrase : Phrase) (type : StaticType) (σ : Shape) : Prop :=
  V.Blind ∧ (σ.map fun _ => none) = σ ∨ phrase.Structured type σ

/-- What is known of a value that has arrived where a type is expected. -/
def arrived (expected type : StaticType) : Option ValueKind :=
  V.kindOf (if type = .any then expected else type)

/-- The shape that a phrase finds. -/
def enters : Phrase → Shape → Shape
  | .statements last _, σ => V.result last ++ σ
  | _, σ => σ

/-- The shape that a phrase leaves. -/
def Leaves : Phrase → StaticType → Shape → Shape → Prop
  | .expr _, type, σ, τ | .statements _ _, type, σ, τ => τ = V.result type ++ σ
  | .operand expected _, type, σ, τ => τ = V.arrived expected type :: σ
  | .body _, _, σ, τ => τ = σ
  | .arguments params _, _, σ, τ =>
    ∃ kinds : Shape, V.passes params kinds = true ∧ τ = kinds.reverse ++ σ

end View

/-- The setting has what code lowered up to here refers to. -/
structure Setting.Covers (E : Setting) (ctx : Context) (s : Lowering) : Prop where
  constants : ∀ {i : Nat} {l}, s.pools.literals.entries[i]? = some (l, ()) →
    E.constants[i]? = some l
  operations : ∀ {i : Nat} {name call}, s.pools.hosts.entries[i]? = some (name, call) →
    E.operation? i = ctx.registry.find? name
  signatures : ∀ {i : Nat} {name sig}, ctx.schemas.entries[i]? = some (name, sig) →
    E.signature? i = some sig
  scope : s.scope.Extends E.scope
  sound : E.scope.Sound

theorem Setting.Covers.of_grows {E : Setting} {ctx : Context} {s s' : Lowering}
    (h : E.Covers ctx s') (hs : s.Grows ctx s') : E.Covers ctx s where
  constants := fun hl => h.constants (hs.pools.literals hl)
  operations := fun hc => h.operations (hs.pools.hosts hc)
  signatures := h.signatures
  scope := hs.scope.trans h.scope
  sound := h.sound

/-- A temporary has a slot, and no variable has the same one. -/
theorem Setting.Covers.temporary {E : Setting} {ctx : Context} {s : Lowering} {scope : Scope}
    {slot : Nat} (hE : E.Covers ctx { s with scope }) (hs : s.Sound ctx)
    (h : s.scope.temporary? = some (slot, scope)) :
    slot < E.scope.slotCount ∧ E.scope.typeAt slot = none := by
  obtain ⟨_, rfl, rfl⟩ := Scope.temporary?_eq_some_iff.1 h
  have hslot : s.scope.slotCount < s.scope.skip.slotCount := Nat.lt_succ_self _
  refine ⟨Nat.lt_of_lt_of_le hslot hE.scope.count, hE.scope.typeAt_eq_none hslot ?_⟩
  intro name l hl heq
  exact absurd (hs.names.below hl) (by omega)

/-- What the code of a counting loop relies on. -/
theorem Setting.Covers.loop {E : Setting} {ctx : Context} {s s' : Lowering} {scope : Scope}
    {span : Span} {counter one : Nat} {l : Literal} (hE : E.Covers ctx s') (hs : s.Sound ctx)
    (slot : s.scope.temporary? = some (counter, scope))
    (unit : Lower.literal l span { s with scope } = .ok (one, s')) :
    E.Covers ctx s ∧ s'.Sound ctx ∧
      (counter < E.scope.slotCount ∧ E.scope.typeAt counter = none) ∧ E.constants[one]? = some l := by
  have hslot : s.Grows ctx { s with scope } := Lowering.grows_of_temporary? slot
  have hunit : Lowering.Grows ctx { s with scope } s' := Lowering.grows_of_literal unit
  have hE' := hE.of_grows hunit
  exact ⟨hE'.of_grows hslot, hunit.sound (hslot.sound hs), hE'.temporary hs slot,
    hE.constants (Lowering.entry_of_literal unit)⟩

/-- What the code of a loop over a list relies on. -/
structure Setting.Lists (E : Setting) (items index first one : Nat) (name : String) (item : Local) :
    Prop where
  items : items < E.scope.slotCount ∧ E.scope.typeAt items = none
  index : index < E.scope.slotCount ∧ E.scope.typeAt index = none
  item : E.scope.find? name = some item
  zero : E.constants[first]? = some (.number .zero)
  one : E.constants[one]? = some (.number .one)

theorem Setting.Covers.each {E : Setting} {ctx : Context} {s s₁ s₂ : Lowering}
    {scope₁ scope₂ scope₃ : Scope} {span : Span} {items index first one : Nat} {name : String}
    {item : Local} (hE : E.Covers ctx s₂) (hs : s.Sound ctx)
    (itemsSlot : s.scope.temporary? = some (items, scope₁))
    (indexSlot : scope₁.temporary? = some (index, scope₂))
    (itemSlot : scope₂.declare? name .any = some (item, scope₃))
    (zero : Lower.literal (.number .zero) span { s with scope := scope₃ } = .ok (first, s₁))
    (unit : Lower.literal (.number .one) span s₁ = .ok (one, s₂)) :
    E.Covers ctx s ∧ s₂.Sound ctx ∧ E.Lists items index first one name item := by
  have hitems : s.Grows ctx { s with scope := scope₁ } := Lowering.grows_of_temporary? itemsSlot
  have hindex : Lowering.Grows ctx { s with scope := scope₁ } { s with scope := scope₂ } :=
    Lowering.grows_of_temporary? indexSlot
  have hitem : Lowering.Grows ctx { s with scope := scope₂ } { s with scope := scope₃ } :=
    Lowering.grows_of_declare? itemSlot
  have hzero : Lowering.Grows ctx { s with scope := scope₃ } s₁ := Lowering.grows_of_literal zero
  have hunit : s₁.Grows ctx s₂ := Lowering.grows_of_literal unit
  have hE₄ := hE.of_grows hunit
  have hE₃ := hE₄.of_grows hzero
  have hE₂ := hE₃.of_grows hitem
  have hE₁ := hE₂.of_grows hindex
  have hs₁ := hitems.sound hs
  refine ⟨hE₁.of_grows hitems, hunit.sound (hzero.sound (hitem.sound (hindex.sound hs₁))), ?_⟩
  exact {
    items := hE₁.temporary hs itemsSlot
    index := Setting.Covers.temporary (s := { s with scope := scope₁ }) hE₂ hs₁ indexSlot
    item := hE₃.scope.kept (Scope.find?_of_declare? itemSlot)
    zero := hE₄.constants (Lowering.entry_of_literal zero)
    one := hE.constants (Lowering.entry_of_literal unit) }

/-- Every type that a call can have is what its name says. -/
structure Context.Plain (ctx : Context) : Prop where
  operation : ∀ {name op}, ctx.registry.find? name = some op → op.returns.Plain
  schema : ∀ {name sig}, ctx.schemas.find? name = some sig → sig.returns.Plain

def Scope.Plain (s : Scope) : Prop := ∀ name l, s.find? name = some l → l.type.Plain

namespace Lowered

variable {ctx : Context} {start : Nat} {phrase : Phrase} {s s' : Lowering} {type : StaticType}
  {code : Code} {marks : List Nat}

theorem plain_declare {scope scope' : Scope} {name : String} {l : Local} (hs : scope.Plain)
    (ht : type.Plain) (h : scope.declare? name type = some (l, scope')) : scope'.Plain := by
  rcases Scope.declare?_eq_some_iff.1 h with ⟨_, rfl⟩ | ⟨_, _, rfl, rfl⟩
  · exact hs
  · intro n k hk
    by_cases hn : n = name
    · subst hn
      rw [Scope.find?_add_self] at hk
      cases hk
      exact ht
    · rw [Scope.find?_add_of_ne hn] at hk
      exact hs _ _ hk

theorem plain_target (plain : ctx.Plain) {target : Target} (known : target.Known ctx) :
    target.returns.Plain := by
  cases target with
  | operation op => exact plain.operation known
  | schema name params returns =>
    obtain ⟨sig, hsig, _, rfl⟩ := known
    exact plain.schema hsig

theorem plain_literal {e : Expr} {l : Literal} (h : e.IsLiteral type l) : type.Plain := by
  cases h <;> trivial

/-- Types stay what their names say. -/
theorem plain (named : ctx.Named) (plain : ctx.Plain)
    (h : Lowered ctx start phrase s type code marks s') : s.scope.Plain →
      (∀ last es, phrase = .statements last es → last.Plain) → type.Plain ∧ s'.scope.Plain := by
  induction h with
  | literal value place =>
    intro hs _
    rw [Lowering.scope_of_literal place]
    exact ⟨plain_literal (Expr.isLiteral_of_literal? value), hs⟩
  | read found => exact fun hs _ => ⟨hs _ _ found, hs⟩
  | write _ place ih =>
    intro hs _
    obtain ⟨ht, hs⟩ := ih hs (by rintro _ _ ⟨⟩)
    exact ⟨trivial, plain_declare hs ht place⟩
  | arithmetic _ _ ih₁ ih₂ =>
    intro hs _
    exact ⟨trivial, (ih₂ (ih₁ hs (by rintro _ _ ⟨⟩)).2 (by rintro _ _ ⟨⟩)).2⟩
  | branch _ _ ih₁ ih₂ =>
    intro hs _
    exact ⟨trivial, (ih₂ (ih₁ hs (by rintro _ _ ⟨⟩)).2 (by rintro _ _ ⟨⟩)).2⟩
  | branchElse _ _ _ ih₁ ih₂ ih₃ =>
    intro hs _
    exact ⟨trivial, (ih₃ (ih₂ (ih₁ hs (by rintro _ _ ⟨⟩)).2 (by rintro _ _ ⟨⟩)).2
      (by rintro _ _ ⟨⟩)).2⟩
  | loop _ slot unit _ ih₁ ih₂ =>
    intro hs _
    have hs₁ := (ih₁ hs (by rintro _ _ ⟨⟩)).2
    obtain ⟨_, _, rfl⟩ := Scope.temporary?_eq_some_iff.1 slot
    refine ⟨trivial, (ih₂ ?_ (by rintro _ _ ⟨⟩)).2⟩
    rw [Lowering.scope_of_literal unit]
    exact hs₁
  | each _ itemsSlot indexSlot itemSlot zero unit _ ih₁ ih₂ =>
    intro hs _
    have hs₁ := (ih₁ hs (by rintro _ _ ⟨⟩)).2
    obtain ⟨_, _, rfl⟩ := Scope.temporary?_eq_some_iff.1 itemsSlot
    obtain ⟨_, _, rfl⟩ := Scope.temporary?_eq_some_iff.1 indexSlot
    refine ⟨trivial, (ih₂ ?_ (by rintro _ _ ⟨⟩)).2⟩
    rw [Lowering.scope_of_literal unit, Lowering.scope_of_literal zero]
    exact plain_declare (show Scope.Plain (Scope.skip (Scope.skip _)) from hs₁)
      (show StaticType.any.Plain from trivial) itemSlot
  | block _ ih =>
    intro hs _
    refine ih hs ?_
    rintro _ _ ⟨⟩
    trivial
  | call bound _ made ih =>
    intro hs _
    rw [Lowering.scope_of_target made]
    exact ⟨plain_target plain (Expr.known_of_targetOf named bound), (ih hs (by rintro _ _ ⟨⟩)).2⟩
  | operand _ _ _ ih => exact fun hs _ => ih hs (by rintro _ _ ⟨⟩)
  | body _ ih => exact fun hs _ => ⟨trivial, (ih hs (by rintro _ _ ⟨⟩)).2⟩
  | noStatements =>
    intro hs hlast
    exact ⟨hlast _ _ rfl, hs⟩
  | statements _ _ ih₁ ih₂ =>
    intro hs _
    obtain ⟨ht, hs₁⟩ := ih₁ hs (by rintro _ _ ⟨⟩)
    refine ih₂ hs₁ ?_
    rintro _ _ ⟨⟩
    exact ht
  | noArguments => exact fun hs _ => ⟨trivial, hs⟩
  | arguments _ _ ih₁ ih₂ =>
    intro hs _
    exact ⟨trivial, (ih₂ (ih₁ hs (by rintro _ _ ⟨⟩)).2 (by rintro _ _ ⟨⟩)).2⟩

end Lowered

namespace StaticType

theorem mem_keywords_or_unresolved (t : StaticType) : t ∈ keywords ∨ ∃ word, t = unresolved word := by
  cases t with
  | unresolved word => exact .inr ⟨word, rfl⟩
  | _ => exact .inl (by decide)

theorem ofKeyword?_name {t : StaticType} (h : t ∈ keywords) : ofKeyword? t.name = some t := by
  revert t
  decide

/-- Types of one name have one kind, if the second is what its name says. -/
theorem kind_eq_of_name_eq {expected type : StaticType} (h : expected.name = type.name)
    (plain : type.Plain) :
    expected.runtimeKind? = none ∨ expected.runtimeKind? = type.runtimeKind? := by
  rcases mem_keywords_or_unresolved expected with he | ⟨word, rfl⟩
  · right
    have hexpected := ofKeyword?_name he
    rw [h] at hexpected
    rcases mem_keywords_or_unresolved type with ht | ⟨word, rfl⟩
    · rw [ofKeyword?_name ht] at hexpected
      rw [Option.some.inj hexpected]
    · rw [show (unresolved word).name = word from rfl, show ofKeyword? word = none from plain]
        at hexpected
      cases hexpected
  · exact .inl rfl

end StaticType

namespace View

variable {V : View} {expected type : StaticType} {σ : Shape} {kinds : Shape}

theorem seen_none : V.seen none = none := by
  unfold seen
  split <;> rfl

theorem seen_of_kinds {kind : Option ValueKind} (h : V.kinds = false) : V.seen kind = none := by
  simp [seen, h]

theorem kindOf_of_kinds (h : V.kinds = false) : V.kindOf type = none := seen_of_kinds h

theorem result_of_ne (h : type ≠ .void) : V.result type = [V.kindOf type] := by
  simp [result, h]

theorem loaded_of_ne (h : type ≠ .void) :
    V.loaded (some type) σ = some (V.kindOf type :: σ) := by
  cases type <;> first | rfl | exact absurd rfl h

theorem suits_arrived (fits : expected.accepts type = true)
    (plain : V.kinds = true → type.Plain) : V.suits expected (V.arrived expected type) = true := by
  have key : V.kindOf expected = none ∨ V.arrived expected type = V.kindOf expected := by
    cases hkinds : V.kinds with
    | false => exact .inl (kindOf_of_kinds hkinds)
    | true =>
      simp only [StaticType.accepts, Bool.or_eq_true, decide_eq_true_eq] at fits
      unfold arrived
      by_cases hany : type = .any
      · exact .inr (by rw [if_pos hany])
      · rw [if_neg hany]
        rcases fits with (rfl | rfl) | hname
        · exact .inl seen_none
        · exact absurd rfl hany
        · rcases StaticType.kind_eq_of_name_eq hname (plain hkinds) with hnone | heq
          · exact .inl (by rw [kindOf, hnone, seen_none])
          · exact .inr (by rw [kindOf, kindOf, heq])
  simpa [suits] using key

theorem length_eq_of_passes {ts : List StaticType} (h : V.passes ts kinds = true) :
    kinds.length = ts.length := by
  induction ts generalizing kinds with
  | nil =>
    cases kinds with
    | nil => rfl
    | cons => cases h
  | cons t ts ih =>
    cases kinds with
    | nil => cases h
    | cons kind kinds =>
      simp only [passes, Bool.and_eq_true] at h
      rw [List.length_cons, List.length_cons, ih h.2]

end View

namespace Setting

variable {E : Setting} {V : View} {expected type : StaticType} {σ : Shape} {start : Nat}

theorem flow_expectation : E.flow V (expectation expected type).toList (V.kindOf type :: σ) =
    some (V.arrived expected type :: σ) := by
  unfold expectation View.arrived
  by_cases hany : type = .any
  · rw [if_pos hany, if_pos hany, hany]
    cases hkind : expected.runtimeKind? with
    | none =>
      have hexpected : V.kindOf expected = none := by rw [View.kindOf, hkind, View.seen_none]
      have hany : V.kindOf .any = none := View.seen_none
      simp [flow, hexpected, hany]
    | some kind => simp [flow, effect, View.kindOf, hkind]
  · rw [if_neg hany, if_neg hany]
    rfl

theorem target_expectation : ∀ i ∈ (expectation expected type).toList, i.target? = none := by
  unfold expectation
  split
  · cases expected.runtimeKind? with
    | none => simp
    | some kind => simp [Instruction.target?]
  · simp

theorem flow_dropValue : E.flow V (dropValue type).toList (V.result type ++ σ) = some σ := by
  unfold dropValue View.result
  by_cases hvoid : type = .void
  · rw [if_pos hvoid, if_pos hvoid]
    rfl
  · rw [if_neg hvoid, if_neg hvoid]
    rfl

theorem target_dropValue : ∀ i ∈ (dropValue type).toList, i.target? = none := by
  unfold dropValue
  split
  · simp
  · simp [Instruction.target?]

namespace Checks

variable {σ τ ρ : Shape} {marks marks' : List Nat} {a b : Code} {i : Instruction}

theorem appendCode (ha : E.Checks V start a.toList σ τ marks)
    (hb : E.Checks V (start + a.size) b.toList τ ρ marks') :
    E.Checks V start (a ++ b).toList σ ρ (marks ++ marks') := by
  rw [Array.toList_append]
  exact ha.append (by rwa [Array.length_toList])

/-- Code without jumps comes next. -/
theorem appendStraight (ha : E.Checks V start a.toList σ τ marks)
    (hb : ∀ i ∈ b.toList, i.target? = none) (hflow : E.flow V b.toList τ = some ρ) :
    E.Checks V start (a ++ b).toList σ ρ marks := by
  have h := ha.appendCode (.straight hb hflow)
  rwa [List.append_nil] at h

/-- The code of a counting loop, from the store of the count on. -/
theorem countdown {counter one : Nat} {body : Code} {kind : Option ValueKind}
    (hslot : counter < E.scope.slotCount ∧ E.scope.typeAt counter = none)
    (hone : E.constants[one]? = some (.number .one))
    (hbody : E.Checks V (start + 5) body.toList σ σ marks) (hσ : V.exact = true → σ = []) :
    E.Checks V start (#[.storeLocal counter, .loadLocal counter, .pushConstant one, .atLeast,
      .jumpIfFalse (start + 5 + body.size + 5)] ++ (body ++ #[.loadLocal counter, .pushConstant one,
      .arithmetic .sub, .storeLocal counter, .jump (start + 1)]) : Code).toList (kind :: σ) σ
      ((start + 1) :: marks) := by
  obtain ⟨hcount, htemporary⟩ := hslot
  have hstore : E.flow V [.storeLocal counter] (kind :: σ) = some σ := by
    simp [Setting.flow, effect, hcount, htemporary, View.stores]
  have htest : E.flow V [.loadLocal counter, .pushConstant one, .atLeast] σ =
      some (V.seen (some .number) :: σ) := by
    simp [Setting.flow, effect, hcount, htemporary, hone, View.loaded]
  have hadvance : E.flow V
      [.loadLocal counter, .pushConstant one, .arithmetic .sub, .storeLocal counter] σ =
      some σ := by
    simp [Setting.flow, effect, hcount, htemporary, hone, View.loaded, View.stores]
  have hcycle : E.Checks V (start + 1) _ σ σ _ := cycle (by simp [Instruction.target?])
    (by simp [Instruction.target?]) htest hbody hadvance hσ
  have h := (straight (by simp [Instruction.target?]) hstore).append hcycle
  simpa [Nat.add_assoc] using h

/-- The code of a loop over a list, from the store of the list on. -/
theorem overItems {items index first one : Nat} {name : String} {item : Local} {body : Code}
    {kind : Option ValueKind} (hsound : E.scope.Sound)
    (hlists : E.Lists items index first one name item) (hitem : V.kindOf item.type = none)
    (hbody : E.Checks V (start + 12) body.toList σ σ marks) (hσ : V.exact = true → σ = []) :
    E.Checks V start (#[.storeLocal items, .pushConstant first, .storeLocal index,
      .loadLocal index, .loadLocal items, .native .listSize, .lessThan,
      .jumpIfFalse (start + 12 + body.size + 5), .loadLocal items, .loadLocal index,
      .native .listGet, .storeLocal item.slot] ++ (body ++ #[.loadLocal index, .pushConstant one,
      .arithmetic .add, .storeLocal index, .jump (start + 3)]) : Code).toList (kind :: σ) σ
      ((start + 3) :: marks) := by
  obtain ⟨⟨hitems, hitemsType⟩, ⟨hindex, hindexType⟩, hfound, hzero, hone⟩ := hlists
  have hstore : E.flow V [.storeLocal items, .pushConstant first, .storeLocal index]
      (kind :: σ) = some σ := by
    simp [Setting.flow, effect, hitems, hitemsType, hindex, hindexType, hzero, View.stores]
  have htest : E.flow V [.loadLocal index, .loadLocal items, .native .listSize, .lessThan] σ =
      some (V.seen (some .number) :: σ) := by
    simp [Setting.flow, effect, hitems, hitemsType, hindex, hindexType, View.loaded, NativeOp.arity,
      NativeOp.returns, View.result]
  have hfetch : E.flow V
      [.loadLocal items, .loadLocal index, .native .listGet, .storeLocal item.slot] σ =
      some σ := by
    simp [Setting.flow, effect, hitems, hitemsType, hindex, hindexType, View.loaded, NativeOp.arity,
      NativeOp.returns, View.result, hsound.below hfound, Scope.typeAt_of_find? hsound hfound,
      View.stores, View.suits, hitem]
  have hadvance : E.flow V
      [.loadLocal index, .pushConstant one, .arithmetic .add, .storeLocal index] σ = some σ := by
    simp [Setting.flow, effect, hindex, hindexType, hone, View.loaded, View.stores]
  have hround : E.Checks V (start + 8) _ σ σ marks :=
    (straight (by simp [Instruction.target?]) hfetch).append hbody
  have hcycle : E.Checks V (start + 3) _ σ σ _ := cycle (by simp [Instruction.target?])
    (by simp [Instruction.target?]) htest hround hadvance hσ
  have h := (straight (by simp [Instruction.target?]) hstore).append hcycle
  have hfinish : 8 + (body.size + 9) = 12 + (body.size + 5) := by omega
  simpa [Nat.add_assoc, Nat.add_comm 4, hfinish] using h

end Checks

/-- A variable that may be read: an operand that no shape counts is ruled out by exact shapes. -/
def Readable (E : Setting) (V : View) (name : String) : Prop :=
  V.exact = true → ∀ l, E.scope.find? name = some l → l.type ≠ .void

/-- A variable that list elements may be stored in, whatever they are. -/
def Loopable (E : Setting) (V : View) (name : String) : Prop :=
  ∀ l, E.scope.find? name = some l → V.kindOf l.type = none

end Setting

namespace View

variable {V : View} {σ : Shape} {kind : Option ValueKind}

theorem blank_cons (h : V.Blind ∧ (σ.map fun _ => none) = σ) (hkind : V.kinds = false → kind = none) :
    V.Blind ∧ ((kind :: σ).map fun _ => none) = kind :: σ := by
  refine ⟨h.1, ?_⟩
  rw [List.map_cons, h.2, hkind h.1.kinds]

/-- An expression without a value stands where a statement may stand. -/
theorem Placed.statement {e : Expr} (h : V.Placed (.expr e) .void σ) :
    V.Blind ∧ (σ.map fun _ => none) = σ ∨ e.IsStatement ∧ σ = [] :=
  h.imp_right (Or.resolve_left · fun hflat => hflat.2 rfl)

/-- What a read leaves, also if it is of type `void`: then it stands where a statement may stand. -/
theorem Placed.loaded {e : Expr} {type : StaticType} (h : V.Placed (.expr e) type σ)
    (hreads : V.exact = true → type ≠ .void) :
    V.loaded (some type) σ = some (V.result type ++ σ) := by
  by_cases hvoid : type = .void
  · subst hvoid
    have hexact : V.exact = false := by
      cases hexact : V.exact with
      | false => rfl
      | true => exact absurd rfl (hreads hexact)
    have hσ : (σ.map fun _ => none) = σ := by
      rcases h.statement with ⟨_, hσ⟩ | ⟨_, rfl⟩
      · exact hσ
      · rfl
    simp [View.loaded, result, hexact, hσ]
  · rw [result_of_ne hvoid, loaded_of_ne hvoid]
    rfl

/-- With exact shapes, a statement finds no operands. -/
theorem empty_of_exact {c : Prop} (h : V.Blind ∧ (σ.map fun _ => none) = σ ∨ c ∧ σ = [])
    (hexact : V.exact = true) : σ = [] := by
  rcases h with ⟨hb, _⟩ | ⟨_, hσ⟩
  · rw [hb.exact] at hexact
    cases hexact
  · exact hσ

/-- A call takes what its arguments have left. -/
theorem called_of_passes {params : List StaticType} {kinds : Shape} {type : StaticType} {argc : Nat}
    (hargc : argc = params.length) (h : V.passes params kinds = true) :
    V.called params type argc (type ≠ .void) (kinds.reverse ++ σ) = some (V.result type ++ σ) := by
  have hlength : argc = kinds.reverse.length := by
    rw [List.length_reverse, length_eq_of_passes h, hargc]
  have htake : (kinds.reverse ++ σ).take argc = kinds.reverse := List.take_left' hlength.symm
  have hdrop : (kinds.reverse ++ σ).drop argc = σ := List.drop_left' hlength.symm
  rw [called, htake, hdrop, List.reverse_reverse, if_pos ⟨hargc, h, rfl⟩]

end View

namespace Lowered

variable {ctx : Context} {start : Nat} {phrase : Phrase} {s s' : Lowering} {type : StaticType}
  {code : Code} {marks : List Nat} {E : Setting} {V : View}

theorem kind_of_literal {e : Expr} {l : Literal} (h : e.IsLiteral type l) :
    type ≠ .void ∧ type.runtimeKind? = some l.toValue.kind := by
  cases h <;> exact ⟨by decide, rfl⟩

theorem length_eq_of_arguments (h : Lowered ctx start phrase s type code marks s') :
    ∀ params es, phrase = .arguments params es → es.length = params.length := by
  induction h with
  | noArguments =>
    rintro _ _ ⟨⟩
    rfl
  | arguments _ _ _ ih =>
    rintro _ _ ⟨⟩
    rw [List.length_cons, List.length_cons, ih _ _ rfl]
  | _ => rintro _ _ ⟨⟩

theorem suits_of_operand {expected : StaticType} {e : Expr} (named : ctx.Named)
    (plain : V.kinds = true → ctx.Plain ∧ E.scope.Plain) (hE : s.scope.Extends E.scope)
    (h : Lowered ctx start (.operand expected e) s type code marks s') :
    V.suits expected (V.arrived expected type) = true := by
  have htype : V.kinds = true → type.Plain := by
    intro hkinds
    obtain ⟨hctx, hscope⟩ := plain hkinds
    exact (h.plain named hctx (fun _ _ hl => hscope _ _ (hE.kept hl)) (by rintro _ _ ⟨⟩)).1
  cases h with
  | operand _ _ fits => exact View.suits_arrived fits htype

/-- The instruction of a call takes the arguments and leaves the result. -/
theorem effect_of_target {target : Target} {span : Span} {argc : Nat} {i : Instruction}
    {kinds : Shape} (declared : ctx.registry.All Operation.WellDeclared) (known : target.Known ctx)
    (hs : s.Sound ctx) (hE : E.Covers ctx s')
    (made : target.lower ctx span argc s = .ok (i, s')) (hargc : argc = target.params.length)
    (hkinds : V.passes target.params kinds = true) (σ : Shape) :
    i.target? = none ∧ E.effect V i (kinds.reverse ++ σ) = some (V.result target.returns ++ σ) := by
  cases target with
  | operation op =>
    rcases Lowering.of_lower_operation made with ⟨native, haction, rfl, rfl⟩ |
      ⟨call, i, haction, rfl, hi⟩
    · refine ⟨rfl, ?_⟩
      have hdeclared := declared.of known
      rw [Operation.WellDeclared, haction] at hdeclared
      obtain ⟨harity, hvoid, hkind⟩ := hdeclared
      have hlength : kinds.reverse.length = native.arity := by
        rw [List.length_reverse, View.length_eq_of_passes hkinds, ← harity, Target.params,
          List.length_map]
      have hresult : V.result native.returns = V.result op.returns := by
        simp only [View.result, View.kindOf, hvoid, hkind]
      simp only [Setting.effect, List.drop_left' hlength, hresult, Target.returns]
      rw [if_pos (by rw [List.length_append]; omega)]
    · refine ⟨rfl, ?_⟩
      have hop := hE.operations (Lowering.entry_of_host known haction hs hi)
      rw [show ctx.registry.find? op.name = some op from known] at hop
      simp only [Setting.effect, hop, Option.bind_some]
      exact View.called_of_passes hargc hkinds
  | schema name params returns =>
    obtain ⟨sig, hsig, rfl, rfl⟩ := known
    obtain ⟨i, hi, rfl, rfl⟩ := Lowering.of_lower_schema made
    refine ⟨rfl, ?_⟩
    obtain ⟨sig', hentry⟩ := Table.position?_eq_some_iff.1 hi
    rw [Table.find?_of_entry hentry] at hsig
    cases hsig
    simp only [Setting.effect, hE.signatures hentry, Option.bind_some]
    exact View.called_of_passes hargc hkinds

/-- Code goes from shape to shape as its tree says. -/
theorem checks (named : ctx.Named) (declared : ctx.registry.All Operation.WellDeclared)
    (plain : V.kinds = true → ctx.Plain ∧ E.scope.Plain)
    (h : Lowered ctx start phrase s type code marks s') : s.Sound ctx → E.Covers ctx s' →
      phrase.Respects (E.Readable V) (E.Loopable V) → ∀ σ, V.Placed phrase type σ →
        ∃ τ, V.Leaves phrase type σ τ ∧
          E.Checks V start code.toList (V.enters phrase σ) τ marks := by
  induction h with
  | literal value place =>
    intro hs hE _ σ _
    obtain ⟨hvalued, hkind⟩ := kind_of_literal (Expr.isLiteral_of_literal? value)
    refine ⟨_, rfl, .straight (by simp [Instruction.target?]) ?_⟩
    have hl := hE.constants (Lowering.entry_of_literal place)
    simp [Setting.flow, Setting.effect, hl, View.enters, View.result_of_ne hvalued, View.kindOf,
      hkind]
  | @read start span name s l found =>
    intro hs hE hr σ hp
    refine ⟨_, rfl, .straight (by simp [Instruction.target?]) ?_⟩
    have hl := hE.scope.kept found
    have hload := hp.loaded fun hexact => hr hexact l hl
    simp [Setting.flow, Setting.effect, hE.sound.below hl, Scope.typeAt_of_find? hE.sound hl,
      View.enters, hload]
  | @write start span name value s type code marks s₁ l scope stored place ih =>
    intro hs hE hr σ hp
    have hE₁ := hE.of_grows (Lowering.grows_of_declare? place)
    obtain ⟨_, rfl, h⟩ := ih hs hE₁ hr σ (hp.statement.imp_right fun h => h.1)
    refine ⟨_, rfl, h.appendStraight (by simp [Instruction.target?]) ?_⟩
    have hl := hE.scope.kept (Scope.find?_of_declare? place)
    have hsuits := suits_of_operand named plain
      ((stored.grows named).scope.trans hE₁.scope) stored
    simp [Setting.flow, Setting.effect, hE.sound.below hl, Scope.typeAt_of_find? hE.sound hl,
      View.stores, hsuits, View.result]
  | @arithmetic start span op left right s leftType leftCode leftMarks s₁ rightType rightCode
      rightMarks s₂ first second ih₁ ih₂ =>
    intro hs hE hr σ hp
    have hE₁ := hE.of_grows (second.grows named)
    obtain ⟨_, rfl, h₁⟩ := ih₁ hs hE₁ hr.1 σ
      (hp.imp_right (by rintro (⟨h, _⟩ | ⟨h, _⟩) <;> exact h.1))
    obtain ⟨_, rfl, h₂⟩ := ih₂ ((first.grows named).sound hs) hE hr.2
      (V.arrived .number leftType :: σ)
      (hp.imp (View.blank_cons · View.kindOf_of_kinds)
        (by rintro (⟨h, _⟩ | ⟨h, _⟩) <;> exact h.2))
    exact ⟨_, rfl, (h₁.appendCode h₂).appendStraight (by simp [Instruction.target?]) rfl⟩
  | @branch start span condition thenBody s type test marks s₁ thenCode thenMarks s₂ tested taken
      ih₁ ih₂ =>
    intro hs hE hr σ hp
    have hE₁ := hE.of_grows (taken.grows named)
    obtain ⟨_, rfl, h₁⟩ := ih₁ hs hE₁ hr.1 σ (hp.statement.imp_right fun h => h.1.1)
    obtain ⟨_, hτ, h₂⟩ := ih₂ ((tested.grows named).sound hs) hE hr.2 σ
      (hp.statement.imp_right fun h => ⟨h.1.2, h.2⟩)
    cases hτ
    refine ⟨σ, rfl, ?_⟩
    have h := h₁.append (Setting.Checks.skip (by rwa [Array.length_toList]))
    change E.Checks V start _ σ σ _
    simpa [View.enters] using h
  | @branchElse start span condition thenBody elseBody s type test marks s₁ thenCode thenMarks s₂
      elseCode elseMarks s₃ tested taken other ih₁ ih₂ ih₃ =>
    intro hs hE hr σ hp
    have hE₂ := hE.of_grows (other.grows named)
    have hE₁ := hE₂.of_grows (taken.grows named)
    have hs₁ := (tested.grows named).sound hs
    obtain ⟨_, rfl, h₁⟩ := ih₁ hs hE₁ hr.1 σ (hp.statement.imp_right fun h => h.1.1)
    obtain ⟨_, hτ, h₂⟩ := ih₂ hs₁ hE₂ hr.2.1 σ (hp.statement.imp_right fun h => ⟨h.1.2.1, h.2⟩)
    cases hτ
    obtain ⟨_, hτ, h₃⟩ := ih₃ ((taken.grows named).sound hs₁) hE hr.2.2 σ
      (hp.statement.imp_right fun h => ⟨h.1.2.2, h.2⟩)
    cases hτ
    refine ⟨σ, rfl, ?_⟩
    have h := h₁.append (Setting.Checks.choose (by rwa [Array.length_toList])
      (by simpa only [Array.length_toList, View.enters] using h₃))
    change E.Checks V start _ σ σ _
    simpa [View.enters, List.append_assoc] using h
  | @loop start span count body s type code marks s₁ counter scope one s₂ bodyCode bodyMarks s₃
      counted slot unit repeated ih₁ ih₂ =>
    intro hs hE hr σ hp
    obtain ⟨hE₁, hs₂, hslot, hone⟩ :=
      (hE.of_grows (repeated.grows named)).loop ((counted.grows named).sound hs) slot unit
    obtain ⟨_, rfl, h₁⟩ := ih₁ hs hE₁ hr.1 σ (hp.statement.imp_right fun h => h.1.1)
    obtain ⟨_, hτ, h₂⟩ := ih₂ hs₂ hE hr.2 σ (hp.statement.imp_right fun h => ⟨h.1.2, h.2⟩)
    cases hτ
    refine ⟨σ, rfl, ?_⟩
    rw [Array.append_assoc, Array.append_assoc]
    exact h₁.appendCode (.countdown hslot hone h₂ (View.empty_of_exact hp.statement))
  | @each start span name sequence body s type code marks s₁ items scope₁ index scope₂ item scope₃
      first s₂ one s₃ bodyCode bodyMarks s₄ listed itemsSlot indexSlot itemSlot zero unit repeated
      ih₁ ih₂ =>
    intro hs hE hr σ hp
    obtain ⟨hE₁, hs₅, hlists⟩ := (hE.of_grows (repeated.grows named)).each
      ((listed.grows named).sound hs) itemsSlot indexSlot itemSlot zero unit
    obtain ⟨_, rfl, h₁⟩ := ih₁ hs hE₁ hr.2.1 σ (hp.statement.imp_right fun h => h.1.1)
    obtain ⟨_, hτ, h₂⟩ := ih₂ hs₅ hE hr.2.2 σ (hp.statement.imp_right fun h => ⟨h.1.2, h.2⟩)
    cases hτ
    refine ⟨σ, rfl, ?_⟩
    rw [Array.append_assoc, Array.append_assoc]
    exact h₁.appendCode (.overItems hE.sound hlists (hr.1 item hlists.item) h₂
      (View.empty_of_exact hp.statement))
  | block inner ih =>
    intro hs hE hr σ hp
    refine ih hs hE hr σ ?_
    rcases hp with hb | ⟨h, _⟩ | h
    · exact .inl hb
    · exact h.elim
    · exact .inr h
  | @call start span name args s target code marks s₁ i s₂ bound passed made ih =>
    intro hs hE hr σ hp
    have known := Expr.known_of_targetOf named bound
    have hE₁ := hE.of_grows (Lowering.grows_of_target known made)
    obtain ⟨_, ⟨kinds, hkinds, rfl⟩, h⟩ := ih hs hE₁ hr σ
      (hp.imp_right (by rintro (⟨h, _⟩ | ⟨h, _⟩) <;> exact h.2))
    obtain ⟨htarget, heffect⟩ := effect_of_target declared known ((passed.grows named).sound hs) hE
      made (passed.length_eq_of_arguments _ _ rfl) hkinds σ
    exact ⟨_, rfl, h.appendStraight (by simpa using htarget) (by simp [Setting.flow, heffect])⟩
  | @operand start expected e s type code marks s' inner valued fits ih =>
    intro hs hE hr σ hp
    obtain ⟨_, rfl, h⟩ := ih hs hE hr σ (hp.imp_right fun h => .inl ⟨h, valued⟩)
    refine ⟨_, rfl, h.appendStraight Setting.target_expectation ?_⟩
    rw [View.result_of_ne valued]
    exact Setting.flow_expectation
  | body inner ih =>
    intro hs hE hr σ hp
    obtain ⟨_, rfl, h⟩ := ih hs hE hr σ (hp.imp_right .inr)
    exact ⟨σ, rfl, h.appendStraight Setting.target_dropValue Setting.flow_dropValue⟩
  | noStatements => exact fun _ _ _ σ _ => ⟨_, rfl, .nil⟩
  | @statements start last e es s type code marks s₁ type' rest marks' s₂ first others ih₁ ih₂ =>
    intro hs hE hr σ hp
    have hE₁ := hE.of_grows (others.grows named)
    obtain ⟨_, rfl, h₁⟩ := ih₁ hs hE₁ hr.1 σ (hp.imp_right fun h => .inr ⟨h.1.1, h.2⟩)
    obtain ⟨_, rfl, h₂⟩ := ih₂ ((first.grows named).sound hs) hE hr.2 σ
      (hp.imp_right fun h => ⟨h.1.2, h.2⟩)
    refine ⟨_, rfl, ?_⟩
    have h₀ : E.Checks V start (dropValue last).toList (V.result last ++ σ) σ [] :=
      .straight Setting.target_dropValue Setting.flow_dropValue
    exact (h₀.appendCode (h₁.mark (View.empty_of_exact hp))).appendCode
      (by simpa [Nat.add_assoc, View.enters] using h₂)
  | noArguments => exact fun _ _ _ σ _ => ⟨σ, ⟨[], rfl, rfl⟩, .nil⟩
  | @arguments start expected params e es s type code marks s₁ rest marks' s₂ first others ih₁ ih₂ =>
    intro hs hE hr σ hp
    have hE₁ := hE.of_grows (others.grows named)
    obtain ⟨_, rfl, h₁⟩ := ih₁ hs hE₁ hr.1 σ (hp.imp_right fun h => h.1)
    obtain ⟨_, ⟨kinds, hkinds, rfl⟩, h₂⟩ := ih₂ ((first.grows named).sound hs) hE hr.2
      (V.arrived expected type :: σ)
      (hp.imp (View.blank_cons · View.kindOf_of_kinds) fun h => h.2)
    have hsuits := suits_of_operand named plain ((first.grows named).scope.trans hE₁.scope) first
    refine ⟨_, ⟨V.arrived expected type :: kinds, ?_, ?_⟩, h₁.appendCode h₂⟩
    · simp [View.passes, hsuits, hkinds]
    · simp

end Lowered

end EventScript
