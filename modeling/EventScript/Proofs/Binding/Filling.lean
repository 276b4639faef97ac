import EventScript.Proofs.Binding.Repeated

/-!
Which calls can be bound, and why the others cannot. The target of a call is fixed by its names
alone; the arguments then have to fill the fields of that target, one by one.
-/
namespace EventScript

theorem StaticType.accepts_iff {expected actual : StaticType} : expected.accepts actual = true ↔
    expected = .any ∨ actual = .any ∨ expected.name = actual.name := by
  simp only [accepts, Bool.or_eq_true, decide_eq_true_eq, or_assoc]

/-- An argument with a value that a field can hold. -/
def Expr.Fills (ctx : Context) (scope : Scope) (field : String × StaticType) (a : Expr) : Prop :=
  ∃ type, a.typeOf ctx scope = .ok type ∧ type ≠ .void ∧
    (field.2 = .any ∨ type = .any ∨ field.2.name = type.name)

namespace Callee

variable {c : Callee} {field : String × StaticType} {type : StaticType} {span : Span} {count : Nat}
  {e : CompileError}

theorem checkCount_eq_ok {u : Unit} : c.checkCount count span = .ok u ↔
    count = c.fields.length := by
  unfold checkCount
  split
  · rename_i h
    exact ⟨nofun, fun heq => absurd heq (Nat.ne_of_lt h)⟩
  · split
    · rename_i h
      exact ⟨nofun, fun heq => absurd heq (Nat.ne_of_gt h)⟩
    · exact ⟨fun _ => by omega, fun _ => rfl⟩

theorem kind_of_checkCount (h : c.checkCount count span = .error e) : e.kind = .arity := by
  unfold checkCount at h
  split at h
  · cases h
    rfl
  · split at h
    · cases h
      rfl
    · cases h

theorem checkField_eq_ok {u : Unit} : c.checkField field type span = .ok u ↔
    type ≠ .void ∧ (field.2 = .any ∨ type = .any ∨ field.2.name = type.name) := by
  rw [checkField, ← StaticType.accepts_iff]
  split
  · rename_i h
    exact ⟨nofun, fun ⟨hne, _⟩ => absurd h hne⟩
  · split
    · rename_i hne h
      exact ⟨fun _ => ⟨hne, h⟩, fun _ => rfl⟩
    · rename_i h
      exact ⟨nofun, fun ⟨_, h'⟩ => absurd h' h⟩

theorem kind_of_checkField (h : c.checkField field type span = .error e) :
    e.kind = .typeMismatch := by
  unfold checkField at h
  split at h
  · cases h
    rfl
  · split at h
    · cases h
    · cases h
      rfl

end Callee

namespace Context

variable {ctx : Context} {name other : String} {span first : Span} {count : Nat}
  {type : StaticType} {c : Callee} {e : CompileError}

theorem callee_eq_ok : ctx.callee name other span = .ok c ↔ ctx.callee? name other = some c := by
  unfold callee
  cases ctx.callee? name other with
  | none => exact ⟨nofun, nofun⟩
  | some d =>
    simp only [Except.ok.injEq, Option.some.injEq]

theorem callee_eq_error : ctx.callee name other span = .error e ↔
    ctx.callee? name other = none ∧
      e = ⟨.unresolvedCall name other (mangle name) (mangle other), span, none⟩ := by
  unfold callee
  cases ctx.callee? name other with
  | none => simp only [refuse, Except.error.injEq, true_and, eq_comm]
  | some d => exact ⟨nofun, fun h => nomatch h.1⟩

/-- What can be called has its fields as its parameters. -/
theorem params_of_callee? (h : ctx.callee? name other = some c) :
    c.target.params = c.fields.map (·.2) := by
  simp only [callee?, Option.orElse_eq_orElse, Option.orElse_eq_or, Option.or_eq_some_iff,
    Option.map_eq_some_iff] at h
  rcases h with ⟨op, _, rfl⟩ | ⟨_, sig, _, rfl⟩
  · simp only [Callee.ofOperation, Target.params, List.map_map]
    rfl
  · rfl

theorem calleeBy_eq_ok : ctx.calleeBy name count span first type = .ok c ↔
    ctx.callee? name (alternate type name) = some c ∧ count = c.fields.length ∧
      ∀ f, c.fields.head? = some f → c.checkField f type first = .ok () := by
  simp only [calleeBy, bind_eq_ok, callee_eq_ok, Callee.checkCount_eq_ok]
  constructor
  · rintro ⟨d, hd, _, hcount, _, hfield, hc⟩
    cases hc
    refine ⟨hd, hcount, fun f hf => ?_⟩
    rw [hf] at hfield
    exact hfield
  · rintro ⟨hd, hcount, hfield⟩
    refine ⟨c, hd, (), hcount, (), ?_, rfl⟩
    cases hf : c.fields.head? with
    | none => rfl
    | some f => exact hfield f hf

/-- Why the type of the first argument leads to no callee. -/
theorem calleeBy_eq_error (h : ctx.calleeBy name count span first type = .error e) :
    ctx.callee name (alternate type name) span = .error e ∨
      e.kind = .arity ∨ e.kind = .typeMismatch := by
  simp only [calleeBy, bind_eq_error] at h
  rcases h with h | ⟨c, _, h | ⟨_, _, h | ⟨_, _, h⟩⟩⟩
  · exact .inl h
  · exact .inr (.inl (Callee.kind_of_checkCount h))
  · cases hf : c.fields.head? with
    | none =>
      rw [hf] at h
      cases h
    | some f =>
      rw [hf] at h
      exact .inr (.inr (Callee.kind_of_checkField h))
  · cases h

theorem kind_of_checkNamed (h : ctx.checkNamed name count span = .error e) : e.kind = .arity := by
  unfold checkNamed at h
  split at h
  · exact Callee.kind_of_checkCount h
  · cases h

/-- The early look at the number of arguments refuses nothing that would be accepted later. -/
theorem checkNamed_of_callee? (h : ctx.callee? name other = some c)
    (hcount : count = c.fields.length) : ctx.checkNamed name count span = .ok () := by
  unfold checkNamed
  cases hop : ctx.registry.find? name with
  | none => rfl
  | some op =>
    cases h.symm.trans (callee?_of_named hop other)
    exact Callee.checkCount_eq_ok.2 hcount

theorem checkNamed_of_callee?_eq_none (h : ctx.callee? name other = none) :
    ctx.checkNamed name count span = .ok () := by
  unfold checkNamed
  cases hop : ctx.registry.find? name with
  | none => rfl
  | some op =>
    cases h.symm.trans (callee?_of_named hop other)

end Context

namespace Expr

variable {ctx : Context} {scope : Scope} {span : Span} {name other : String} {target : Target}
  {c : Callee} {e : CompileError}

theorem alternateName_cons {a : Expr} {as : List Expr} :
    (alternateName ctx scope name (a :: as)).1 = .ok other ↔
      ∃ type, a.typeOf ctx scope = .ok type ∧ Context.alternate type name = other :=
  map_eq_ok

theorem fills_iff {field : String × StaticType} {a : Expr} : Fills ctx scope field a ↔
    ∃ type, a.typeOf ctx scope = .ok type ∧ c.checkField field type a.span = .ok () := by
  simp only [Fills, Callee.checkField_eq_ok]

theorem inferFields_eq_ok {fields : List (String × StaticType)} {args : List Expr} {u : Unit}
    (h : args.length = fields.length) : (inferFields ctx scope c fields args).1 = .ok u ↔
      List.Forall₂ (Fills ctx scope) fields args := by
  induction fields generalizing args with
  | nil =>
    cases List.length_eq_zero_iff.1 h
    exact ⟨fun _ => .nil, fun _ => rfl⟩
  | cons f fs ih =>
    cases args with
    | nil => cases h
    | cons a as =>
      rw [inferFields_cons, List.forall₂_cons, ← ih (Nat.succ.inj h), fills_iff (c := c)]
      cases hfirst : (a.infer ctx scope).1 >>= fun type => c.checkField f type a.span with
      | error e =>
        refine ⟨nofun, fun ⟨⟨type, htype, hfield⟩, _⟩ => ?_⟩
        rw [show (a.infer ctx scope).1 = .ok type from htype] at hfirst
        exact absurd (hfirst.symm.trans hfield) nofun
      | ok u' =>
        exact (and_iff_right (bind_eq_ok.1 hfirst)).symm

theorem inferFields_eq_error {fields : List (String × StaticType)} {args : List Expr}
    (h : (inferFields ctx scope c fields args).1 = .error e) :
    e.kind = .typeMismatch ∨ ∃ a ∈ args, a.typeOf ctx scope = .error e := by
  induction fields generalizing args with
  | nil =>
    rw [inferFields] at h
    · cases h
    · exact nofun
  | cons f fs ih =>
    cases args with
    | nil => cases h
    | cons a as =>
      rw [inferFields_cons] at h
      cases hfirst : (a.infer ctx scope).1 >>= fun type => c.checkField f type a.span with
      | error e' =>
        rw [hfirst] at h
        cases h
        rcases bind_eq_error.1 hfirst with ha | ⟨type, _, hfield⟩
        · exact .inr ⟨a, List.mem_cons_self, ha⟩
        · exact .inl (Callee.kind_of_checkField hfield)
      | ok u =>
        rw [hfirst] at h
        rcases ih h with hkind | ⟨b, hb, he⟩
        · exact .inl hkind
        · exact .inr ⟨b, List.mem_cons_of_mem a hb, he⟩

/-- The first argument fills the first field with its type, and the others fill the others. -/
theorem forall₂_fills_cons {a : Expr} {as : List Expr} {type : StaticType}
    (htype : a.typeOf ctx scope = .ok type) (hcount : as.length + 1 = c.fields.length) :
    List.Forall₂ (Fills ctx scope) c.fields (a :: as) ↔
      (∀ f, c.fields.head? = some f → c.checkField f type a.span = .ok ()) ∧
        List.Forall₂ (Fills ctx scope) c.fields.tail as := by
  obtain ⟨f, fs, hfields⟩ := List.exists_cons_of_length_eq_add_one hcount.symm
  rw [hfields, List.forall₂_cons, fills_iff (c := c)]
  simp only [htype, Except.ok.injEq, exists_eq_left', List.head?_cons, Option.some.injEq,
    forall_eq', List.tail_cons]

/-- The look at the name alone refuses nothing that the callee would accept. -/
theorem bindCall_cons_eq_ok {a : Expr} {as : List Expr} :
    (bindCall ctx scope span name (a :: as)).1 = .ok target ↔
      ∃ type c, a.typeOf ctx scope = .ok type ∧
        ctx.calleeBy name (as.length + 1) span a.span type = .ok c ∧
          (inferFields ctx scope c c.fields.tail as).1 = .ok () ∧ c.target = target := by
  rw [bindCall_cons]
  constructor
  · intro ht
    cases hnamed : ctx.checkNamed name (as.length + 1) span with
    | error e =>
      rw [hnamed] at ht
      cases ht
    | ok u =>
      cases hfound : (a.infer ctx scope).1 >>= ctx.calleeBy name (as.length + 1) span a.span with
      | error e =>
        rw [hnamed, hfound] at ht
        cases ht
      | ok c =>
        rw [hnamed, hfound] at ht
        obtain ⟨_, hrest, htarget⟩ := map_eq_ok.1 ht
        obtain ⟨type, htype, hcallee⟩ := bind_eq_ok.1 hfound
        exact ⟨type, c, htype, hcallee, hrest, htarget⟩
  · rintro ⟨type, c, htype, hcallee, hrest, htarget⟩
    obtain ⟨hc, hcount, _⟩ := Context.calleeBy_eq_ok.1 hcallee
    have hfound : (a.infer ctx scope).1 >>= ctx.calleeBy name (as.length + 1) span a.span = .ok c :=
      bind_eq_ok.2 ⟨type, htype, hcallee⟩
    rw [Context.checkNamed_of_callee? hc hcount, hfound]
    exact map_eq_ok.2 ⟨(), hrest, htarget⟩

/-- A call is bound to what has one of its names, just if the arguments fill its fields. -/
theorem bindCall_eq_ok_iff {args : List Expr} :
    (bindCall ctx scope span name args).1 = .ok target ↔
      ∃ other c, (alternateName ctx scope name args).1 = .ok other ∧
        ctx.callee? name other = some c ∧ List.Forall₂ (Fills ctx scope) c.fields args ∧
          c.target = target := by
  cases args with
  | nil =>
    simp only [bindCall, bind_eq_ok, Context.callee_eq_ok, Callee.checkCount_eq_ok]
    constructor
    · rintro ⟨c, hc, _, hcount, ht⟩
      cases ht
      refine ⟨name, c, rfl, hc, ?_, rfl⟩
      rw [List.length_eq_zero_iff.1 hcount.symm]
      exact .nil
    · rintro ⟨_, c, hother, hc, hfill, rfl⟩
      cases hother
      exact ⟨c, hc, (), hfill.length_eq.symm, rfl⟩
  | cons a as =>
    have hlength {c : Callee} (hcount : as.length + 1 = c.fields.length) :
        as.length = c.fields.tail.length := by
      rw [List.length_tail, ← hcount, Nat.add_sub_cancel]
    rw [bindCall_cons_eq_ok]
    constructor
    · rintro ⟨type, c, htype, hcallee, hrest, rfl⟩
      obtain ⟨hc, hcount, hfield⟩ := Context.calleeBy_eq_ok.1 hcallee
      have hfill := (inferFields_eq_ok (hlength hcount)).1 hrest
      exact ⟨_, c, alternateName_cons.2 ⟨type, htype, rfl⟩, hc,
        (forall₂_fills_cons htype hcount).2 ⟨hfield, hfill⟩, rfl⟩
    · rintro ⟨_, c, hother, hc, hfill, rfl⟩
      obtain ⟨type, htype, rfl⟩ := alternateName_cons.1 hother
      have hcount : as.length + 1 = c.fields.length := hfill.length_eq.symm
      obtain ⟨hfield, hfill⟩ := (forall₂_fills_cons htype hcount).1 hfill
      exact ⟨type, c, htype, Context.calleeBy_eq_ok.2 ⟨hc, hcount, hfield⟩,
        (inferFields_eq_ok (hlength hcount)).2 hfill, rfl⟩

/-- Nothing has one of the names of the call. -/
theorem bindCall_of_callee?_eq_none {args : List Expr}
    (hother : (alternateName ctx scope name args).1 = .ok other)
    (h : ctx.callee? name other = none) : (bindCall ctx scope span name args).1 =
      .error ⟨.unresolvedCall name other (mangle name) (mangle other), span, none⟩ := by
  have hcallee : ctx.callee name other span =
      .error ⟨.unresolvedCall name other (mangle name) (mangle other), span, none⟩ :=
    Context.callee_eq_error.2 ⟨h, rfl⟩
  cases args with
  | nil =>
    cases hother
    simp only [bindCall, hcallee]
    rfl
  | cons a as =>
    obtain ⟨type, htype, rfl⟩ := alternateName_cons.1 hother
    have hfound : (a.infer ctx scope).1 >>= ctx.calleeBy name (as.length + 1) span a.span =
        .error ⟨.unresolvedCall name (Context.alternate type name) (mangle name)
          (mangle (Context.alternate type name)), span, none⟩ := by
      refine bind_eq_error.2 (.inr ⟨type, htype, ?_⟩)
      rw [Context.calleeBy, hcallee]
      rfl
    rw [bindCall_cons, Context.checkNamed_of_callee?_eq_none h, hfound]

/-- Why a call is not bound: an argument has no type, the arguments do not fill the fields, or
nothing has one of the names. -/
theorem bindCall_eq_error {args : List Expr}
    (h : (bindCall ctx scope span name args).1 = .error e) :
    (∃ a ∈ args, a.typeOf ctx scope = .error e) ∨ e.kind = .arity ∨ e.kind = .typeMismatch ∨
      ∃ other, (alternateName ctx scope name args).1 = .ok other ∧
        ctx.callee name other span = .error e := by
  cases args with
  | nil =>
    simp only [bindCall, bind_eq_error] at h
    rcases h with h | ⟨c, _, h | ⟨_, _, h⟩⟩
    · exact .inr (.inr (.inr ⟨name, rfl, h⟩))
    · exact .inr (.inl (Callee.kind_of_checkCount h))
    · cases h
  | cons a as =>
    rw [bindCall_cons] at h
    cases hnamed : ctx.checkNamed name (as.length + 1) span with
    | error e' =>
      rw [hnamed] at h
      cases h
      exact .inr (.inl (Context.kind_of_checkNamed hnamed))
    | ok u =>
      cases hfound : (a.infer ctx scope).1 >>= ctx.calleeBy name (as.length + 1) span a.span with
      | error e' =>
        rw [hnamed, hfound] at h
        cases h
        rcases bind_eq_error.1 hfound with ha | ⟨type, htype, hcallee⟩
        · exact .inl ⟨a, List.mem_cons_self, ha⟩
        · rcases Context.calleeBy_eq_error hcallee with hcallee | hkind | hkind
          · exact .inr (.inr (.inr ⟨_, alternateName_cons.2 ⟨type, htype, rfl⟩, hcallee⟩))
          · exact .inr (.inl hkind)
          · exact .inr (.inr (.inl hkind))
      | ok c =>
        rw [hnamed, hfound] at h
        rcases inferFields_eq_error (map_eq_error.1 h) with hkind | ⟨b, hb, he⟩
        · exact .inr (.inr (.inl hkind))
        · exact .inl ⟨b, List.mem_cons_of_mem a hb, he⟩

end Expr

end EventScript
