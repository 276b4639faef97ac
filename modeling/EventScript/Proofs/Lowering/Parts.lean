import EventScript.Proofs.BindingHistory
import EventScript.Proofs.Lowering.Enclosed

/-!
Where the parts of a schema stand in its code. Every part of the body has a stretch of code of its
own, and the code of a loop is laid out around those of its condition and its body.
-/
namespace EventScript

namespace Code

variable {whole a b : Code} {start : Nat} {i : Instruction}

theorem has_self (whole : Code) : whole.Has 0 whole := by
  intro k i hi
  rwa [Nat.zero_add]

theorem Has.left (h : whole.Has start (a ++ b)) : whole.Has start a := by
  intro k i hi
  apply h
  rw [Array.getElem?_append_left (Array.getElem?_eq_some_iff.1 hi).1, hi]

theorem Has.right {start' : Nat} (h : whole.Has start (a ++ b)) (hstart : start' = start + a.size) :
    whole.Has start' b := by
  intro k i hi
  rw [hstart, Nat.add_assoc]
  apply h
  rw [Array.getElem?_append_right (Nat.le_add_right _ _), Nat.add_sub_cancel_left, hi]

/-- The pieces of the code of a loop. -/
theorem Has.pieces {test head body tail : Code}
    (h : whole.Has start (test ++ head ++ body ++ tail)) :
    whole.Has start test ∧ whole.Has (start + test.size) head ∧
      whole.Has (start + test.size + head.size) body ∧
      whole.Has (start + test.size + head.size + body.size) tail := by
  refine ⟨h.left.left.left, h.left.left.right rfl, h.left.right ?_, h.right ?_⟩ <;>
    simp only [Array.size_append, Nat.add_assoc]

end Code

namespace Program

/-- The program has the literals that a lowering has named, and a routine has its slots, under the
names of their variables. -/
structure Covers (p : Program) (r : Routine) (s : Lowering) : Prop where
  constants : ∀ {i : Nat} {l}, s.pools.literals.entries[i]? = some (l, ()) →
    p.constants[i]? = some l
  slots : s.scope.slotCount ≤ r.localCount
  names : ∀ {name l}, s.scope.find? name = some l → r.localNames[l.slot]?.join = some name

/-- Between two offsets a routine of the program has the code of a phrase. -/
inductive Places (p : Program) (ctx : Context) (r : Routine) : Phrase → Nat → Nat → Prop where
  | intro {phrase start s type code marks s'}
      (lowered : Lowered ctx start phrase s type code marks s') (sound : s.Sound ctx)
      (covers : p.Covers r s') (stands : r.code.Has start code) :
      Places p ctx r phrase start (start + code.size)

/-- A loop in a routine that counts a slot down: where the count is stored and where the body
ends. -/
structure Countdown (p : Program) (r : Routine) (test last counter : Nat) : Prop where
  slot : counter < r.localCount
  body : r.code.Encloses (test + 5) last (· = counter)
  code : ∃ one, p.constants[one]? = some (.number .one) ∧
    r.code.Has test #[.storeLocal counter, .loadLocal counter, .pushConstant one, .atLeast,
      .jumpIfFalse (last + 5)] ∧
    r.code.Has last #[.loadLocal counter, .pushConstant one, .arithmetic .sub, .storeLocal counter,
      .jump (test + 1)]

/-- A loop in a routine that goes through a list: where the list is stored and where the body ends,
and the slots of the list, the position and the item. -/
structure Listing (p : Program) (r : Routine) (test last items index item : Nat) : Prop where
  slots : items < r.localCount ∧ index < r.localCount ∧ item < r.localCount
  apart : items ≠ index ∧ item ≠ items ∧ item ≠ index
  body : r.code.Encloses (test + 12) last fun slot => slot = items ∨ slot = index
  code : ∃ first one, p.constants[first]? = some (.number .zero) ∧
    p.constants[one]? = some (.number .one) ∧
    r.code.Has test #[.storeLocal items, .pushConstant first, .storeLocal index, .loadLocal index,
      .loadLocal items, .native .listSize, .lessThan, .jumpIfFalse (last + 5), .loadLocal items,
      .loadLocal index, .native .listGet, .storeLocal item] ∧
    r.code.Has last #[.loadLocal index, .pushConstant one, .arithmetic .add, .storeLocal index,
      .jump (test + 3)]

variable {p : Program} {ctx : Context} {r : Routine} {s s' : Lowering} {e part : Expr}
  {es : List Expr} {type : StaticType} {types : List StaticType} {start stop : Nat}
  {place : List Nat}

theorem Covers.of_grows (h : p.Covers r s') (hgrows : s.Grows ctx s') : p.Covers r s where
  constants := fun hl => h.constants (hgrows.pools.literals hl)
  slots := Nat.le_trans hgrows.scope.count h.slots
  names := fun hl => h.names (hgrows.scope.kept hl)

/-! ### Parts of a phrase -/

theorem Places.of_operand (h : p.Places ctx r (.operand type e) start stop) :
    ∃ stop', p.Places ctx r (.expr e) start stop' := by
  obtain ⟨lowered, sound, covers, stands⟩ := h
  cases lowered with
  | operand inner => exact ⟨_, .intro inner sound covers stands.left⟩

theorem Places.of_body (h : p.Places ctx r (.body e) start stop) :
    ∃ stop', p.Places ctx r (.expr e) start stop' := by
  obtain ⟨lowered, sound, covers, stands⟩ := h
  cases lowered with
  | body inner => exact ⟨_, .intro inner sound covers stands.left⟩

theorem Places.of_statements (named : ctx.Named)
    (h : p.Places ctx r (.statements type es) start stop) (he : e ∈ es) :
    ∃ start' stop', p.Places ctx r (.expr e) start' stop' := by
  induction es generalizing type start stop with
  | nil => cases he
  | cons _ es ih =>
    obtain ⟨lowered, sound, covers, stands⟩ := h
    cases lowered with
    | statements first others =>
      rcases List.mem_cons.1 he with rfl | he
      · have hgrows := others.grows named
        exact ⟨_, _, .intro first sound (covers.of_grows hgrows) (stands.left.right rfl)⟩
      · exact ih (.intro others ((first.grows named).sound sound) covers
          (stands.right (by rw [Array.size_append, Nat.add_assoc]))) he

theorem Places.of_arguments (named : ctx.Named)
    (h : p.Places ctx r (.arguments types es) start stop) (he : e ∈ es) :
    ∃ start' stop', p.Places ctx r (.expr e) start' stop' := by
  induction es generalizing types start stop with
  | nil => cases he
  | cons _ es ih =>
    obtain ⟨lowered, sound, covers, stands⟩ := h
    cases lowered with
    | arguments first others =>
      rcases List.mem_cons.1 he with rfl | he
      · have hfirst : p.Places ctx r _ _ _ :=
          .intro first sound (covers.of_grows (others.grows named)) stands.left
        exact ⟨_, hfirst.of_operand⟩
      · exact ih (.intro others ((first.grows named).sound sound) covers (stands.right rfl)) he

theorem Places.of_empty_body {span : Span}
    (h : p.Places ctx r (.body (.block span [])) start stop) : stop = start := by
  obtain ⟨lowered, _, _, _⟩ := h
  cases lowered with
  | body inner =>
    cases inner with
    | literal value _ => cases value
    | block inner =>
      cases inner
      rfl

/-- A counting loop: its count, its body, and the code around them. -/
theorem Places.of_loop (named : ctx.Named) {span : Span} {count body : Expr}
    (h : p.Places ctx r (.expr (.loop span count body)) start stop) :
    ∃ test last counter, p.Places ctx r (.operand .number count) start test ∧
      p.Places ctx r (.body body) (test + 5) last ∧ stop = last + 5 ∧
        p.Countdown r test last counter := by
  obtain ⟨lowered, sound, covers, stands⟩ := h
  cases lowered with
  | literal value _ => cases value
  | @loop _ _ _ _ _ _ test _ s₁ counter scope one s₂ bodyCode _ s₃ counted slot unit repeated =>
    have hcounted := counted.grows named
    have hslot : s₁.Grows ctx { s₁ with scope } := Lowering.grows_of_temporary? slot
    have hunit : Lowering.Grows ctx { s₁ with scope } s₂ := Lowering.grows_of_literal unit
    have hrepeated := repeated.grows named
    have sound₁ := hcounted.sound sound
    have sound₂ := hunit.sound (hslot.sound sound₁)
    have hides : s₂.scope.Hides counter := by
      rw [Lowering.scope_of_literal unit]
      exact Scope.hides_of_temporary? sound₁.names slot
    obtain ⟨htest, hhead, hbody, htail⟩ := stands.pieces
    have hencloses := (repeated.flows named sound₂).encloses hbody
    refine ⟨start + test.size, start + test.size + 5 + bodyCode.size, counter, ?_, ?_, ?_, ?_, ?_,
      ?_⟩
    · exact .intro counted sound
        (covers.of_grows (hslot.trans (hunit.trans hrepeated))) htest
    · exact .intro repeated sound₂ covers hbody
    · simp only [Array.size_append, List.size_toArray, List.length_cons, List.length_nil]
      omega
    · exact Nat.lt_of_lt_of_le hides.1 (Nat.le_trans hrepeated.scope.count covers.slots)
    · exact ⟨hencloses.le, hencloses.stays, fun h h' hi hs => hencloses.spares h h' hi (hs ▸ hides)⟩
    · exact ⟨one, covers.constants (hrepeated.pools.literals (Lowering.entry_of_literal unit)),
        hhead, htail⟩

/-- A loop over a list: its sequence, its variable, its body, and the code around them. -/
theorem Places.of_each (named : ctx.Named) {span : Span} {name : String} {sequence body : Expr}
    (h : p.Places ctx r (.expr (.each span name sequence body)) start stop) :
    ∃ test last items index item, p.Places ctx r (.operand .list sequence) start test ∧
      r.localNames[item]?.join = some name ∧ p.Places ctx r (.body body) (test + 12) last ∧
        stop = last + 5 ∧ p.Listing r test last items index item := by
  obtain ⟨lowered, sound, covers, stands⟩ := h
  cases lowered with
  | literal value _ => cases value
  | @each _ _ _ _ _ _ _ test _ s₁ items scope₁ index scope₂ item scope₃ first s₂ one s₃ bodyCode _
      s₄ listed itemsSlot indexSlot itemSlot zero unit repeated =>
    have hlisted := listed.grows named
    have hitems : s₁.Grows ctx { s₁ with scope := scope₁ } := Lowering.grows_of_temporary? itemsSlot
    have hindex : Lowering.Grows ctx { s₁ with scope := scope₁ } { s₁ with scope := scope₂ } :=
      Lowering.grows_of_temporary? (s := ⟨_, _⟩) indexSlot
    have hitem : Lowering.Grows ctx { s₁ with scope := scope₂ } { s₁ with scope := scope₃ } :=
      Lowering.grows_of_declare? (s := ⟨_, _⟩) itemSlot
    have hzero : Lowering.Grows ctx { s₁ with scope := scope₃ } s₂ := Lowering.grows_of_literal zero
    have hunit : s₂.Grows ctx s₃ := Lowering.grows_of_literal unit
    have hrepeated := repeated.grows named
    have hliterals := hunit.trans hrepeated
    have sound₁ := hlisted.sound sound
    have sound₂ := hitems.sound sound₁
    have sound₃ := (hindex.trans (hitem.trans (hzero.trans hunit))).sound sound₂
    have hscope : s₃.scope = scope₃ := by
      rw [Lowering.scope_of_literal unit, Lowering.scope_of_literal zero]
    have hides₁ : scope₂.Hides items :=
      (Scope.hides_of_temporary? sound₁.names itemsSlot).extends hindex.scope
    have hides₂ : scope₂.Hides index := Scope.hides_of_temporary? sound₂.names indexSlot
    have hides {slot : Nat} (h : scope₂.Hides slot) : s₃.scope.Hides slot :=
      hscope ▸ h.extends hitem.scope
    have hroom {slot : Nat} (h : slot < scope₃.slotCount) : slot < r.localCount := by
      rw [← hscope] at h
      exact Nat.lt_of_lt_of_le h (Nat.le_trans hrepeated.scope.count covers.slots)
    have hapart : items ≠ index := by
      obtain ⟨_, rfl, rfl⟩ := Scope.temporary?_eq_some_iff.1 itemsSlot
      obtain ⟨_, rfl, _⟩ := Scope.temporary?_eq_some_iff.1 indexSlot
      exact Nat.ne_of_lt (Nat.lt_succ_self _)
    obtain ⟨htest, hhead, hbody, htail⟩ := stands.pieces
    have hencloses := (repeated.flows named sound₃).encloses hbody
    have hfound := Scope.find?_of_declare? itemSlot
    refine ⟨start + test.size, start + test.size + 12 + bodyCode.size, items, index, item.slot, ?_,
      ?_, ?_, ?_, ?_, ?_, ?_, ?_⟩
    · exact .intro listed sound (covers.of_grows (hitems.trans (hindex.trans (hitem.trans
        (hzero.trans hliterals))))) htest
    · exact covers.names (hrepeated.scope.kept (hscope ▸ hfound))
    · exact .intro repeated sound₃ covers hbody
    · simp only [Array.size_append, List.size_toArray, List.length_cons, List.length_nil]
      omega
    · exact ⟨hroom (hides₁.extends hitem.scope).1, hroom (hides₂.extends hitem.scope).1,
        hroom ((hitem.sound (hindex.sound sound₂)).names.below hfound)⟩
    · exact ⟨hapart, hides₁.ne_of_declare? itemSlot, hides₂.ne_of_declare? itemSlot⟩
    · refine ⟨hencloses.le, hencloses.stays, fun h h' hi hs => hencloses.spares h h' hi ?_⟩
      rcases hs with rfl | rfl
      · exact hides hides₁
      · exact hides hides₂
    · exact ⟨first, one,
        covers.constants (hliterals.pools.literals (Lowering.entry_of_literal zero)),
        covers.constants (hrepeated.pools.literals (Lowering.entry_of_literal unit)), hhead, htail⟩

/-! ### Parts of a tree -/

theorem Places.of_children (named : ctx.Named) (h : p.Places ctx r (.expr e) start stop)
    (hpart : part ∈ e.children) : ∃ start' stop', p.Places ctx r (.expr part) start' stop' := by
  cases e with
  | number | string | text | bool | read => cases hpart
  | loop =>
    obtain ⟨_, _, _, hcount, hbody, _⟩ := h.of_loop named
    rcases List.mem_pair.1 hpart with rfl | rfl
    · exact ⟨_, hcount.of_operand⟩
    · exact ⟨_, hbody.of_body⟩
  | each =>
    obtain ⟨_, _, _, _, _, hsequence, _, hbody, _⟩ := h.of_each named
    rcases List.mem_pair.1 hpart with rfl | rfl
    · exact ⟨_, hsequence.of_operand⟩
    · exact ⟨_, hbody.of_body⟩
  | write =>
    obtain ⟨lowered, sound, covers, stands⟩ := h
    cases lowered with
    | literal value _ => cases value
    | write stored place =>
      cases List.mem_singleton.1 hpart
      have hgrows : Lowering.Grows ctx _ _ := Lowering.grows_of_declare? place
      have hstored : p.Places ctx r _ _ _ :=
        .intro stored sound (covers.of_grows hgrows) stands.left
      exact ⟨_, hstored.of_operand⟩
  | arithmetic =>
    obtain ⟨lowered, sound, covers, stands⟩ := h
    cases lowered with
    | literal value _ => cases value
    | arithmetic first second =>
      have hfirst : p.Places ctx r _ _ _ :=
        .intro first sound (covers.of_grows (second.grows named)) stands.left.left
      have hsecond : p.Places ctx r _ _ _ :=
        .intro second ((first.grows named).sound sound) covers (stands.left.right rfl)
      rcases List.mem_pair.1 hpart with rfl | rfl
      · exact ⟨_, hfirst.of_operand⟩
      · exact ⟨_, hsecond.of_operand⟩
  | branch _ _ _ elseBody =>
    obtain ⟨lowered, sound, covers, stands⟩ := h
    cases lowered with
    | literal value _ => cases value
    | branch tested taken =>
      have htested : p.Places ctx r _ _ _ :=
        .intro tested sound (covers.of_grows (taken.grows named)) stands.left.left
      have htaken : p.Places ctx r _ _ _ := .intro taken ((tested.grows named).sound sound) covers
        (stands.right (by rw [Array.size_append]; rfl))
      rcases List.mem_pair.1 hpart with rfl | rfl
      · exact ⟨_, htested.of_operand⟩
      · exact ⟨_, htaken.of_body⟩
    | branchElse tested taken other =>
      have hgrows := tested.grows named
      have hothers := other.grows named
      have htested : p.Places ctx r _ _ _ := .intro tested sound
        (covers.of_grows ((taken.grows named).trans hothers)) stands.left.left.left.left
      have htaken : p.Places ctx r _ _ _ := .intro taken (hgrows.sound sound)
        (covers.of_grows hothers) (stands.left.left.right (by rw [Array.size_append]; rfl))
      have hother : p.Places ctx r _ _ _ := .intro other
        ((hgrows.trans (taken.grows named)).sound sound) covers (stands.right (by
          simp only [Array.size_append, List.size_toArray, List.length_cons, List.length_nil]
          omega))
      simp only [Expr.children, List.mem_cons, List.not_mem_nil, or_false] at hpart
      rcases hpart with rfl | rfl | rfl
      · exact ⟨_, htested.of_operand⟩
      · exact ⟨_, htaken.of_body⟩
      · exact ⟨_, hother.of_body⟩
  | block =>
    obtain ⟨lowered, sound, covers, stands⟩ := h
    cases lowered with
    | literal value _ => cases value
    | block inner =>
      have hinner : p.Places ctx r _ _ _ := .intro inner sound covers stands
      exact hinner.of_statements named hpart
  | call =>
    obtain ⟨lowered, sound, covers, stands⟩ := h
    cases lowered with
    | literal value _ => cases value
    | call bound passed made =>
      have hmade := Lowering.grows_of_target (Expr.known_of_targetOf named bound) made
      have hpassed : p.Places ctx r _ _ _ :=
        .intro passed sound (covers.of_grows hmade) stands.left
      exact hpassed.of_arguments named hpart
  | bound =>
    obtain ⟨lowered, _⟩ := h
    cases lowered with
    | literal value _ => cases value

/-- Every part of a tree has its code where that of the tree is. -/
theorem Places.of_at? (named : ctx.Named) (h : p.Places ctx r (.expr e) start stop)
    (hpart : e.at? place = some part) :
    ∃ start' stop', p.Places ctx r (.expr part) start' stop' := by
  induction place generalizing e start stop with
  | nil =>
    cases hpart
    exact ⟨_, _, h⟩
  | cons i place ih =>
    obtain ⟨child, hchild, hpart⟩ := Option.bind_eq_some_iff.1 hpart
    obtain ⟨_, _, hplaces⟩ := h.of_children named (List.mem_of_getElem? hchild)
    exact ih hplaces hpart

/-- Every part of a schema has its code in the routine of the schema. -/
theorem Lowers.exists_places {ds : List Definition} {pools : Pools} {d : Definition} {i : Nat}
    (h : p.Lowers ctx ds pools) (hd : ds[i]? = some d) (hr : p.routines[i]? = some r)
    (hpart : d.schema.body.at? place = some part) :
    ∃ start stop, p.Places ctx r (.expr part) start stop := by
  obtain ⟨before, r', marks, s', hr', hlower, hlowers, hsound, hextends⟩ := h.routines hd
  rw [hr] at hr'
  cases hr'
  have hnames := hlowers.names h.named hsound
  have hcovers : p.Covers r s' := by
    refine ⟨fun hl => ?_, ?_, fun hl => hlowers.join_localNames hnames hl⟩
    · rw [h.constants, Array.getElem?_map, hextends.literals hl]
      rfl
    · obtain ⟨_⟩ := hlowers
      exact Nat.le_refl _
  obtain ⟨hbody, _, lowered, _⟩ := hlowers
  rw [hbody] at hpart
  exact (Places.intro (.block lowered) ⟨Scope.sound_ofParams, hsound⟩ hcovers
    (Code.has_self _).left).of_at? h.named hpart

end Program

end EventScript
