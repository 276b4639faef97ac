import EventScript.Proofs.Lowering.Layout
import EventScript.Proofs.Machine.Calls

/-!
Where control goes in lowered code. The code of a tree jumps only to places of its own or to its end
and returns from nowhere. Slots that no variable has belong to the loop that took them: no other code
reads or stores them, and the loop has filled them before it reads them.
-/
namespace EventScript

namespace Instruction

def loads? : Instruction → Option Nat
  | loadLocal slot => some slot
  | _ => none

def stores? : Instruction → Option Nat
  | storeLocal slot => some slot
  | _ => none

/-- The instruction ends the call. -/
def Returns (i : Instruction) : Prop := i = .returnValue ∨ i = .returnVoid

instance : DecidablePred Returns := fun i =>
  inferInstanceAs (Decidable (i = .returnValue ∨ i = .returnVoid))

/-- The instruction goes on to the next one, and no variable is read or stored. -/
def isStraight : Instruction → Bool
  | jump _ | jumpIfFalse _ | loadLocal _ | storeLocal _ | returnValue | returnVoid => false
  | _ => true

theorem of_isStraight {i : Instruction} (h : i.isStraight = true) :
    ¬i.Returns ∧ i.target? = none ∧ i.loads? = none ∧ i.stores? = none := by
  revert h
  cases i <;> simp [isStraight, Returns, target?, loads?, stores?]

theorem next_or_target {i : Instruction} {n m : Nat} (h : i.GoesTo n m) :
    m = n + 1 ∨ i.target? = some m := by
  cases h with
  | next => exact .inl rfl
  | target h => exact .inr h

end Instruction

namespace Scope

/-- The slot has been given out, but to no variable. -/
def Hides (s : Scope) (slot : Nat) : Prop :=
  slot < s.slotCount ∧ ∀ name l, s.find? name = some l → l.slot ≠ slot

variable {s s' : Scope} {slot : Nat} {name : String} {type : StaticType} {l : Local}

theorem Hides.extends (h : s.Hides slot) (hext : s.Extends s') : s'.Hides slot := by
  refine ⟨Nat.lt_of_lt_of_le h.1 hext.count, fun name l hl => ?_⟩
  rcases hext.fresh hl with hl | hl
  · exact h.2 name l hl
  · exact Nat.ne_of_gt (Nat.lt_of_lt_of_le h.1 hl)

/-- A slot of a later scope that no variable has was so before, or is new. -/
theorem Hides.before (h : s'.Hides slot) (hext : s.Extends s') : s.Hides slot ∨ s.slotCount ≤ slot := by
  by_cases hslot : slot < s.slotCount
  · exact .inl ⟨hslot, fun name l hl => h.2 name l (hext.kept hl)⟩
  · exact .inr (Nat.le_of_not_lt hslot)

theorem Hides.ne_of_declare? (h : s.Hides slot) (hl : s.declare? name type = some (l, s')) :
    l.slot ≠ slot := by
  rcases declare?_eq_some_iff.1 hl with ⟨hl, _⟩ | ⟨_, _, rfl, _⟩
  · exact h.2 name l hl
  · exact Nat.ne_of_gt h.1

theorem hides_of_temporary? (hs : s.Sound) (h : s.temporary? = some (slot, s')) :
    s'.Hides slot := by
  obtain ⟨_, rfl, rfl⟩ := temporary?_eq_some_iff.1 h
  exact ⟨Nat.lt_succ_self _, fun name l hl => Nat.ne_of_lt (hs.below hl)⟩

end Scope

namespace Code

variable {P Q : Nat → Instruction → Prop} {start : Nat} {a b code : Code}

/-- Every instruction of code that stands at `start` has the property, which may speak of its
offset. -/
def Every (P : Nat → Instruction → Prop) (start : Nat) (code : Code) : Prop :=
  ∀ k i, code[k]? = some i → P (start + k) i

@[simp] theorem every_empty : Every P start #[] := by
  intro k i h
  cases h

theorem every_append : Every P start (a ++ b) ↔ Every P start a ∧ Every P (start + a.size) b := by
  constructor
  · intro h
    constructor
    · intro k i hi
      apply h
      rwa [Array.getElem?_append_left (Array.getElem?_eq_some_iff.1 hi).1]
    · intro k i hi
      rw [Nat.add_assoc]
      apply h
      rwa [Array.getElem?_append_right (Nat.le_add_right _ _), Nat.add_sub_cancel_left]
  · rintro ⟨ha, hb⟩ k i hi
    by_cases hk : k < a.size
    · rw [Array.getElem?_append_left hk] at hi
      exact ha k i hi
    · have hk := Nat.le_of_not_lt hk
      rw [Array.getElem?_append_right hk] at hi
      have h := hb _ _ hi
      rwa [Nat.add_assoc, Nat.add_sub_cancel' hk] at h

@[simp] theorem every_cons {i : Instruction} {is : List Instruction} :
    Every P start (i :: is).toArray ↔ P start i ∧ Every P (start + 1) is.toArray := by
  rw [show (i :: is).toArray = #[i] ++ is.toArray by simp, every_append]
  refine and_congr ⟨fun h => h 0 i rfl, fun h => ?_⟩ Iff.rfl
  rintro (_ | k) j hj <;> cases hj
  exact h

theorem Every.imp (h : ∀ n i, start ≤ n → n < start + code.size → P n i → Q n i)
    (hP : Every P start code) : Every Q start code := by
  intro k i hi
  have hk := (Array.getElem?_eq_some_iff.1 hi).1
  exact h _ _ (Nat.le_add_right _ _) (Nat.add_lt_add_left hk _) (hP k i hi)

theorem every_of_forall (h : ∀ i ∈ code, ∀ n, P n i) : Every P start code :=
  fun _ i hi => h i (Array.mem_of_getElem? hi) _

/-- Between two offsets a slot is filled: control comes there from elsewhere only with a store into
the slot, and nowhere else the slot is read. -/
structure Fills (start : Nat) (code : Code) (slot lo hi : Nat) : Prop where
  low : start < lo
  high : hi ≤ start + code.size
  entered : Every (fun n i => ∀ m, i.GoesTo n m → lo ≤ m → m < hi →
    lo ≤ n ∧ n < hi ∨ i.stores? = some slot) start code
  loaded : Every (fun n i => i.loads? = some slot → lo ≤ n ∧ n < hi) start code

/-- What lowered code does to control and slots, from one scope to another. -/
structure Flows (s s' : Scope) (start : Nat) (code : Code) : Prop where
  stays : Every (fun _ i => ¬i.Returns ∧
    ∀ m, i.target? = some m → start < m ∧ m ≤ start + code.size) start code
  spares : ∀ slot, s.Hides slot →
    Every (fun _ i => i.loads? ≠ some slot ∧ i.stores? ≠ some slot) start code
  below : Every (fun _ i => ∀ slot, i.loads? = some slot → slot < s'.slotCount) start code
  fills : ∀ slot, s'.Hides slot → ∃ lo hi, Fills start code slot lo hi

variable {s s₁ s₂ s₃ : Scope} {slot lo hi : Nat}

/-- Code that does not read a slot need not have filled it. -/
theorem fills_of_not_loaded (h : Every (fun _ i => i.loads? ≠ some slot) start code) :
    Fills start code slot (start + 1) 0 where
  low := Nat.lt_succ_self _
  high := Nat.zero_le _
  entered := fun _ _ _ _ _ _ hm => absurd hm (Nat.not_lt_zero _)
  loaded := fun k i hi hl => absurd hl (h k i hi)

/-- From its first store on a slot is filled. -/
theorem fills_of_store {pre mid post : Code} {q : Nat} (hq : pre[q]? = some (.storeLocal slot))
    (before : ∀ (k : Nat) i, pre[k]? = some i → k < q → i.target? = none ∧ i.loads? ≠ some slot) :
    Fills start (pre ++ mid ++ post) slot (start + q + 1) (start + (pre ++ mid ++ post).size) := by
  have hpre {k : Nat} (hk : k ≤ q) : (pre ++ mid ++ post)[k]? = pre[k]? := by
    have hlt := (Array.getElem?_eq_some_iff.1 hq).1
    rw [Array.append_assoc, Array.getElem?_append_left (Nat.lt_of_le_of_lt hk hlt)]
  refine ⟨by omega, Nat.le_refl _, ?_, ?_⟩
  · intro k i hi m hm hlo _
    have hk := (Array.getElem?_eq_some_iff.1 hi).1
    rcases Nat.lt_trichotomy k q with hlt | rfl | hgt
    · rw [hpre (Nat.le_of_lt hlt)] at hi
      rcases Instruction.next_or_target hm with rfl | hm
      · omega
      · rw [(before k i hi hlt).1] at hm
        cases hm
    · rw [hpre (Nat.le_refl _), hq] at hi
      cases hi
      exact .inr rfl
    · exact .inl ⟨by omega, by omega⟩
  · intro k i hi hl
    have hk := (Array.getElem?_eq_some_iff.1 hi).1
    rcases Nat.lt_trichotomy k q with hlt | rfl | hgt
    · rw [hpre (Nat.le_of_lt hlt)] at hi
      exact absurd hl (before k i hi hlt).2
    · rw [hpre (Nat.le_refl _), hq] at hi
      cases hi
      cases hl
    · exact ⟨by omega, by omega⟩

/-- Code behind that neither jumps nor reads. -/
theorem Fills.append (h : Fills start a slot lo hi)
    (hb : ∀ i ∈ b, i.target? = none ∧ i.loads? = none) : Fills start (a ++ b) slot lo hi := by
  have hhigh := h.high
  refine ⟨h.low, by rw [Array.size_append]; omega, every_append.2 ⟨h.entered, ?_⟩,
    every_append.2 ⟨h.loaded, ?_⟩⟩
  · intro k i hk m hm _ _
    rcases Instruction.next_or_target hm with rfl | hm
    · omega
    · rw [(hb i (Array.mem_of_getElem? hk)).1] at hm
      cases hm
  · intro k i hk hl
    rw [(hb i (Array.mem_of_getElem? hk)).2] at hl
    cases hl

namespace Flows

variable {n m : Nat} {i : Instruction}

/-- Control does not leave the code but at its end, and does not come back to its beginning. -/
theorem goesTo (h : Flows s s₁ start code) (hi : code[n]? = some i) (hm : i.GoesTo (start + n) m) :
    start < m ∧ m ≤ start + code.size := by
  have hn := (Array.getElem?_eq_some_iff.1 hi).1
  rcases Instruction.next_or_target hm with rfl | hm
  · omega
  · exact (h.stays n i hi).2 m hm

theorem straight (h : ∀ i ∈ code, i.isStraight = true) : Flows s s start code where
  stays := every_of_forall fun i hi _ => by simp [Instruction.of_isStraight (h i hi)]
  spares := fun slot _ => every_of_forall fun i hi _ => by simp [Instruction.of_isStraight (h i hi)]
  below := every_of_forall fun i hi _ => by simp [Instruction.of_isStraight (h i hi)]
  fills := fun slot _ => ⟨_, _, fills_of_not_loaded (every_of_forall fun i hi _ => by
    simp [Instruction.of_isStraight (h i hi)])⟩

theorem load {name : String} {l : Local} (hs : s.Sound) (hl : s.find? name = some l) :
    Flows s s start #[.loadLocal l.slot] where
  stays := by simp [Instruction.Returns, Instruction.target?]
  spares := by
    intro slot hslot
    simp [Instruction.loads?, Instruction.stores?, hslot.2 name l hl]
  below := by
    simp only [every_cons, Instruction.loads?, Option.some.injEq, every_empty, and_true]
    rintro _ rfl
    exact hs.below hl
  fills := by
    intro slot hslot
    refine ⟨_, _, fills_of_not_loaded ?_⟩
    simp [Instruction.loads?, hslot.2 name l hl]

theorem store {name : String} {type : StaticType} {l : Local}
    (hl : s.declare? name type = some (l, s₁)) : Flows s s₁ start #[.storeLocal l.slot] where
  stays := by simp [Instruction.Returns, Instruction.target?]
  spares := by
    intro slot hslot
    simp [Instruction.loads?, Instruction.stores?, hslot.ne_of_declare? hl]
  below := by simp [Instruction.loads?]
  fills := fun slot _ => ⟨_, _, fills_of_not_loaded (by simp [Instruction.loads?])⟩

/-- Code after code. -/
theorem append (ha : Flows s s₁ start a) (hb : Flows s₁ s₂ (start + a.size) b)
    (hs : s.Extends s₁) (hs' : s₁.Extends s₂) : Flows s s₂ start (a ++ b) where
  stays := by
    rw [every_append, Array.size_append]
    refine ⟨ha.stays.imp ?_, hb.stays.imp ?_⟩ <;> rintro n i _ _ ⟨hret, hm⟩ <;>
      refine ⟨hret, fun m htarget => ?_⟩ <;> have := hm m htarget <;> omega
  spares := fun slot hslot =>
    every_append.2 ⟨ha.spares slot hslot, hb.spares slot (hslot.extends hs)⟩
  below := every_append.2 ⟨ha.below.imp fun _ _ _ _ h slot hl =>
    Nat.lt_of_lt_of_le (h slot hl) hs'.count, hb.below⟩
  fills := by
    intro slot hslot
    rcases hslot.before hs' with hold | hnew
    · -- the slot is none of the second part's
      obtain ⟨lo, hi, hf⟩ := ha.fills slot hold
      have hhigh := hf.high
      refine ⟨lo, hi, hf.low, by rw [Array.size_append]; omega, every_append.2 ⟨hf.entered, ?_⟩,
        every_append.2 ⟨hf.loaded, ?_⟩⟩
      · intro k i hi' m hm _ hlt
        have := hb.goesTo hi' hm
        omega
      · intro k i hi' hl
        exact absurd hl (hb.spares slot hold k i hi').1
    · -- the slot is none of the first part's
      obtain ⟨lo, hi, hf⟩ := hb.fills slot hslot
      have hlow := hf.low
      have hhigh := hf.high
      refine ⟨lo, hi, by omega, by rw [Array.size_append]; omega,
        every_append.2 ⟨?_, hf.entered⟩, every_append.2 ⟨?_, hf.loaded⟩⟩
      · intro k i hi' m hm hle _
        have := ha.goesTo hi' hm
        omega
      · intro k i hi' hl
        have := ha.below k i hi' slot hl
        omega

end Flows

/-- An instruction of `[start, stop)` before or after a part `[lo, hi)` that is lowered from one scope
to another, beginning in a scope that extends that of the whole. -/
structure Links (s s₁ s₂ : Scope) (start lo hi stop : Nat) (i : Instruction) : Prop where
  stays : ¬i.Returns
  jumps : ∀ m, i.target? = some m → start < m ∧ m ≤ stop ∧ (m ≤ lo ∨ hi ≤ m)
  spares : ∀ slot, s.Hides slot → i.loads? ≠ some slot ∧ i.stores? ≠ some slot
  loads : ∀ slot, i.loads? = some slot → slot < s₂.slotCount ∧ (s₂.Hides slot → s₁.Hides slot)

/-- Code around a part. The slots that the part finds hidden are the whole's own to fill. -/
theorem Flows.around (pre post : Code) (stop : Nat) {mid : Code}
    (hmid : Flows s₁ s₂ (start + pre.size) mid) (hs : s.Extends s₁)
    (hstop : stop = start + pre.size + mid.size + post.size)
    (hpre : Every (fun _ => Links s s₁ s₂ start (start + pre.size) (start + pre.size + mid.size) stop)
      start pre)
    (hpost : Every (fun _ => Links s s₁ s₂ start (start + pre.size) (start + pre.size + mid.size) stop)
      (start + pre.size + mid.size) post)
    (own : ∀ slot, s₁.Hides slot → ¬s.Hides slot → ∃ lo hi, Fills start (pre ++ mid ++ post) slot lo hi) :
    Flows s s₂ start (pre ++ mid ++ post) := by
  have hsize : start + (pre ++ mid ++ post).size = stop := by
    simp only [Array.size_append]
    omega
  have hposts : start + (pre ++ mid).size = start + pre.size + mid.size := by
    rw [Array.size_append, Nat.add_assoc]
  have hall {P : Nat → Instruction → Prop} (h₁ : Every P start pre)
      (h₂ : Every P (start + pre.size) mid) (h₃ : Every P (start + pre.size + mid.size) post) :
      Every P start (pre ++ mid ++ post) :=
    every_append.2 ⟨every_append.2 ⟨h₁, h₂⟩, hposts ▸ h₃⟩
  have hspares : ∀ slot, s.Hides slot →
      Every (fun _ i => i.loads? ≠ some slot ∧ i.stores? ≠ some slot) start (pre ++ mid ++ post) :=
    fun slot hslot => hall (hpre.imp fun _ _ _ _ h => h.spares slot hslot)
      (hmid.spares slot (hslot.extends hs)) (hpost.imp fun _ _ _ _ h => h.spares slot hslot)
  refine ⟨?_, hspares, ?_, ?_⟩
  · rw [hsize]
    refine hall (hpre.imp ?_) (hmid.stays.imp ?_) (hpost.imp ?_)
    · exact fun _ _ _ _ h => ⟨h.stays, fun m hm => ⟨(h.jumps m hm).1, (h.jumps m hm).2.1⟩⟩
    · rintro n i _ _ ⟨hret, hm⟩
      refine ⟨hret, fun m htarget => ?_⟩
      have := hm m htarget
      omega
    · exact fun _ _ _ _ h => ⟨h.stays, fun m hm => ⟨(h.jumps m hm).1, (h.jumps m hm).2.1⟩⟩
  · exact hall (hpre.imp fun _ _ _ _ h slot hl => (h.loads slot hl).1) hmid.below
      (hpost.imp fun _ _ _ _ h slot hl => (h.loads slot hl).1)
  · intro slot hslot
    by_cases hinner : s₁.Hides slot
    · by_cases houter : s.Hides slot
      · exact ⟨_, _, fills_of_not_loaded ((hspares slot houter).imp fun _ _ _ _ h => h.1)⟩
      · exact own slot hinner houter
    · obtain ⟨lo, hi, hf⟩ := hmid.fills slot hslot
      have hlow := hf.low
      have hhigh := hf.high
      refine ⟨lo, hi, by omega, by omega, hall ?_ hf.entered ?_, hall ?_ hf.loaded ?_⟩
      · intro k i hk m hm hle hlt
        have hksize := (Array.getElem?_eq_some_iff.1 hk).1
        rcases Instruction.next_or_target hm with rfl | hm
        · omega
        · have := (hpre k i hk).jumps m hm
          omega
      · intro k i hk m hm hle hlt
        rcases Instruction.next_or_target hm with rfl | hm
        · omega
        · have := (hpost k i hk).jumps m hm
          omega
      · exact fun k i hk hl => absurd (((hpre k i hk).loads slot hl).2 hslot) hinner
      · exact fun k i hk hl => absurd (((hpost k i hk).loads slot hl).2 hslot) hinner

namespace Links

variable {i : Instruction} {stop target : Nat}

theorem straight (h : i.isStraight = true) : Links s s₁ s₂ start lo hi stop i := by
  have h := Instruction.of_isStraight h
  constructor <;> simp [h]

theorem jump (h : i = .jump target ∨ i = .jumpIfFalse target) (hstart : start < target)
    (hstop : target ≤ stop) (hpart : target ≤ lo ∨ hi ≤ target) :
    Links s s₁ s₂ start lo hi stop i := by
  rcases h with rfl | rfl <;> constructor <;>
    simp [Instruction.Returns, Instruction.target?, Instruction.loads?, Instruction.stores?, *]

theorem load (hslot : s₁.Hides slot) (hs : ¬s.Hides slot) (hcount : s₁.slotCount ≤ s₂.slotCount) :
    Links s s₁ s₂ start lo hi stop (.loadLocal slot) where
  stays := by simp [Instruction.Returns]
  jumps := by simp [Instruction.target?]
  spares := by
    intro k hk
    refine ⟨?_, by simp [Instruction.stores?]⟩
    rintro ⟨⟩
    exact hs hk
  loads := by
    rintro _ ⟨⟩
    exact ⟨Nat.lt_of_lt_of_le hslot.1 hcount, fun _ => hslot⟩

theorem store (hs : ¬s.Hides slot) : Links s s₁ s₂ start lo hi stop (.storeLocal slot) where
  stays := by simp [Instruction.Returns]
  jumps := by simp [Instruction.target?]
  spares := by
    intro k hk
    refine ⟨by simp [Instruction.loads?], ?_⟩
    rintro ⟨⟩
    exact hs hk
  loads := by simp [Instruction.loads?]

end Links

namespace Flows

/-- A body that a condition can skip. -/
theorem skip (h : Flows s s₁ (start + 1) code) :
    Flows s s₁ start (#[.jumpIfFalse (start + 1 + code.size)] ++ code) := by
  have haround := h.around #[.jumpIfFalse (start + 1 + code.size)] #[] _ (.refl s)
    rfl ?_ every_empty fun slot hslot hnot => absurd hslot hnot
  · rwa [Array.append_empty] at haround
  · rw [every_cons]
    exact ⟨.jump (.inr rfl) (by omega) (Nat.le_refl _) (.inr (Nat.le_refl _)), every_empty⟩

/-- Two bodies between which a condition chooses. -/
theorem choose (ha : Flows s s₁ (start + 1) a) (hb : Flows s₁ s₂ (start + 1 + a.size + 1) b)
    (hs : s.Extends s₁) (hs' : s₁.Extends s₂) :
    Flows s s₂ start (#[.jumpIfFalse (start + 1 + a.size + 1)] ++ a ++
      #[.jump (start + 1 + a.size + 1 + b.size)] ++ b) := by
  have hall {P : Nat → Instruction → Prop} (h₁ : P start (.jumpIfFalse (start + 1 + a.size + 1)))
      (h₂ : Every P (start + 1) a)
      (h₃ : P (start + 1 + a.size) (.jump (start + 1 + a.size + 1 + b.size)))
      (h₄ : Every P (start + 1 + a.size + 1) b) :
      Every P start ((#[.jumpIfFalse (start + 1 + a.size + 1)] ++ a ++
        #[.jump (start + 1 + a.size + 1 + b.size)] ++ b : Code)) := by
    simp only [every_append, every_cons, every_empty, and_true, Array.size_append,
      List.size_toArray, List.length_cons, List.length_nil, ← Nat.add_assoc, Nat.add_zero]
    exact ⟨⟨⟨h₁, h₂⟩, h₃⟩, h₄⟩
  have hsize : start + (#[.jumpIfFalse (start + 1 + a.size + 1)] ++ a ++
      #[.jump (start + 1 + a.size + 1 + b.size)] ++ b : Code).size = start + 1 + a.size + 1 + b.size := by
    simp only [Array.size_append, List.size_toArray, List.length_cons, List.length_nil]
    omega
  constructor
  · rw [hsize]
    refine hall ⟨by simp [Instruction.Returns], ?_⟩ (ha.stays.imp ?_)
      ⟨by simp [Instruction.Returns], ?_⟩ (hb.stays.imp ?_)
    · rintro _ ⟨⟩
      omega
    · rintro n i _ _ ⟨hret, hm⟩
      refine ⟨hret, fun m htarget => ?_⟩
      have := hm m htarget
      omega
    · rintro _ ⟨⟩
      omega
    · rintro n i _ _ ⟨hret, hm⟩
      refine ⟨hret, fun m htarget => ?_⟩
      have := hm m htarget
      omega
  · exact fun slot hslot => hall ⟨nofun, nofun⟩ (ha.spares slot hslot) ⟨nofun, nofun⟩
      (hb.spares slot (hslot.extends hs))
  · exact hall nofun (ha.below.imp fun _ _ _ _ h slot hl =>
      Nat.lt_of_lt_of_le (h slot hl) hs'.count) nofun hb.below
  · -- a filled slot is one of a single body's, and the jumps go to where a body begins or ends
    intro slot hslot
    rcases hslot.before hs' with hold | hnew
    · obtain ⟨lo, hi, hf⟩ := ha.fills slot hold
      have hlow := hf.low
      have hhigh := hf.high
      refine ⟨lo, hi, by omega, by omega, hall ?_ hf.entered ?_ ?_, hall nofun hf.loaded nofun ?_⟩
      · intro m hm
        rcases Instruction.next_or_target hm with rfl | ⟨⟨⟩⟩ <;> omega
      · intro m hm
        rcases Instruction.next_or_target hm with rfl | ⟨⟨⟩⟩ <;> omega
      · intro k i hk m hm _ _
        have := hb.goesTo hk hm
        omega
      · exact fun k i hk hl => absurd hl (hb.spares slot hold k i hk).1
    · obtain ⟨lo, hi, hf⟩ := hb.fills slot hslot
      have hlow := hf.low
      have hhigh := hf.high
      refine ⟨lo, hi, by omega, by omega, hall ?_ ?_ ?_ hf.entered, hall nofun ?_ nofun hf.loaded⟩
      · intro m hm
        rcases Instruction.next_or_target hm with rfl | ⟨⟨⟩⟩ <;> omega
      · intro k i hk m hm _ _
        have := ha.goesTo hk hm
        omega
      · intro m hm
        rcases Instruction.next_or_target hm with rfl | ⟨⟨⟩⟩ <;> omega
      · intro k i hk hl
        have := ha.below k i hk slot hl
        omega

/-- A loop that counts down in a slot of its own. -/
theorem counting (one : Nat) {counter : Nat} {body : Code} (hs : s.Sound)
    (hslot : s.temporary? = some (counter, s₁)) (hbody : Flows s₁ s₂ (start + 5) body)
    (hext : s₁.Extends s₂) :
    Flows s s₂ start (#[.storeLocal counter, .loadLocal counter, .pushConstant one, .atLeast,
        .jumpIfFalse (start + 5 + body.size + 5)] ++ body ++
      #[.loadLocal counter, .pushConstant one, .arithmetic .sub, .storeLocal counter,
        .jump (start + 1)]) := by
  have hides := Scope.hides_of_temporary? hs hslot
  obtain ⟨_, rfl, rfl⟩ := Scope.temporary?_eq_some_iff.1 hslot
  have hnot : ¬s.Hides s.slotCount := fun h => absurd h.1 (Nat.lt_irrefl _)
  refine hbody.around _ _ (start + 5 + body.size + 5) (Scope.extends_skip s) rfl ?_ ?_ ?_
  · simp only [every_cons, every_empty, and_true]
    exact ⟨.store hnot, .load hides hnot hext.count, .straight rfl, .straight rfl,
      .jump (.inr rfl) (by omega) (Nat.le_refl _) (.inr (Nat.le_add_right _ _))⟩
  · simp only [every_cons, every_empty, and_true]
    exact ⟨.load hides hnot hext.count, .straight rfl, .straight rfl, .store hnot,
      .jump (.inl rfl) (by omega) (by omega) (.inl (Nat.add_le_add_left (Nat.le_of_ble_eq_true rfl) _))⟩
  · intro slot hslot houter
    have hnew : slot = s.slotCount := by
      have := hslot.1
      rcases hslot.before (Scope.extends_skip s) with h | h
      · exact absurd h houter
      · simp only [Scope.skip] at this
        omega
    subst hnew
    exact ⟨_, _, fills_of_store (q := 0) rfl fun k _ _ hk => absurd hk (Nat.not_lt_zero k)⟩

/-- A loop over a list that keeps the list and its position in slots of its own. -/
theorem listing (first one : Nat) {s₄ : Scope} {items index : Nat} {name : String} {item : Local}
    {body : Code} (hs : s.Sound) (hitems : s.temporary? = some (items, s₁))
    (hindex : s₁.temporary? = some (index, s₂)) (hitem : s₂.declare? name .any = some (item, s₃))
    (hbody : Flows s₃ s₄ (start + 12) body) (hext : s₃.Extends s₄) :
    Flows s s₄ start (#[.storeLocal items, .pushConstant first, .storeLocal index, .loadLocal index,
        .loadLocal items, .native .listSize, .lessThan,
        .jumpIfFalse (start + 12 + body.size + 5), .loadLocal items, .loadLocal index,
        .native .listGet, .storeLocal item.slot] ++ body ++
      #[.loadLocal index, .pushConstant one, .arithmetic .add, .storeLocal index,
        .jump (start + 3)]) := by
  have hitem' := Scope.extends_of_declare? hitem
  have hfirst := Scope.hides_of_temporary? hs hitems
  have hides₂ := Scope.hides_of_temporary? (by
    obtain ⟨_, _, rfl⟩ := Scope.temporary?_eq_some_iff.1 hitems
    exact Scope.sound_skip hs) hindex
  obtain ⟨_, rfl, rfl⟩ := Scope.temporary?_eq_some_iff.1 hitems
  obtain ⟨_, rfl, rfl⟩ := Scope.temporary?_eq_some_iff.1 hindex
  have hides₁ := (hfirst.extends (Scope.extends_skip _)).extends hitem'
  have hides₂ := hides₂.extends hitem'
  have houter := (Scope.extends_skip s).trans (Scope.extends_skip _)
  have hnot₁ : ¬s.Hides s.slotCount := fun h => absurd h.1 (Nat.lt_irrefl _)
  have hnot₂ : ¬s.Hides s.skip.slotCount := fun h => absurd h.1 (Nat.not_lt.2 (Nat.le_succ _))
  have hnot₃ : ¬s.Hides item.slot := fun h => (h.extends houter).ne_of_declare? hitem rfl
  refine hbody.around _ _ (start + 12 + body.size + 5) (houter.trans hitem') rfl ?_ ?_ ?_
  · simp only [every_cons, every_empty, and_true]
    exact ⟨.store hnot₁, .straight rfl, .store hnot₂, .load hides₂ hnot₂ hext.count,
      .load hides₁ hnot₁ hext.count, .straight rfl, .straight rfl,
      .jump (.inr rfl) (by omega) (Nat.le_refl _) (.inr (Nat.le_add_right _ _)),
      .load hides₁ hnot₁ hext.count, .load hides₂ hnot₂ hext.count, .straight rfl,
      .store hnot₃⟩
  · simp only [every_cons, every_empty, and_true]
    exact ⟨.load hides₂ hnot₂ hext.count, .straight rfl, .straight rfl, .store hnot₂,
      .jump (.inl rfl) (by omega) (by omega) (.inl (Nat.add_le_add_left (Nat.le_of_ble_eq_true rfl) _))⟩
  · intro slot hslot hnot
    rcases hslot.before hitem' with hold | hnew
    · have hcases : slot = s.slotCount ∨ slot = s.skip.slotCount := by
        have hlt := hold.1
        rcases hold.before houter with h | h
        · exact absurd h hnot
        · simp only [Scope.skip] at hlt ⊢
          omega
      rcases hcases with rfl | rfl
      · exact ⟨_, _, fills_of_store (q := 0) rfl fun k _ _ hk => absurd hk (Nat.not_lt_zero k)⟩
      · refine ⟨_, _, fills_of_store (q := 2) rfl fun k i hi hk => ?_⟩
        rcases k with _ | _ | k
        · cases hi
          exact ⟨rfl, nofun⟩
        · cases hi
          exact ⟨rfl, nofun⟩
        · omega
    · -- a new slot after these two is that of the item
      rcases Scope.declare?_eq_some_iff.1 hitem with ⟨_, rfl⟩ | ⟨_, _, rfl, rfl⟩
      · exact absurd hslot.1 (Nat.not_lt.2 hnew)
      · have hlt := hslot.1
        have hne := hslot.2 _ _ Scope.find?_add_self
        simp only [Scope.add] at hlt hne
        omega

end Flows

end Code

namespace Lowered

open Code

theorem isStraight_of_mem_expectation {expected actual : StaticType} {i : Instruction}
    (h : i ∈ expectation expected actual) : i.isStraight = true := by
  unfold expectation at h
  split at h
  · cases hkind : expected.runtimeKind? with
    | none => simp [hkind] at h
    | some kind =>
      simp only [hkind, Option.map_some, Option.toArray_some, Array.mem_singleton] at h
      rw [h]
      rfl
  · simp at h

theorem isStraight_of_mem_dropValue {type : StaticType} {i : Instruction}
    (h : i ∈ dropValue type) : i.isStraight = true := by
  unfold dropValue at h
  split at h
  · simp at h
  · rw [Array.mem_singleton.1 h]
    rfl

/-- The instruction that makes a call goes on to the next one. -/
theorem isStraight_of_target {ctx : Context} {target : Target} {span : Span} {argc : Nat}
    {s s' : Lowering} {i : Instruction} (h : target.lower ctx span argc s = .ok (i, s')) :
    i.isStraight = true := by
  cases target with
  | operation op =>
    rcases Lowering.of_lower_operation h with ⟨_, _, rfl, _⟩ | ⟨_, _, _, rfl, _⟩ <;> rfl
  | schema name params returns =>
    obtain ⟨_, _, rfl, _⟩ := Lowering.of_lower_schema h
    rfl

variable {ctx : Context} {start : Nat} {phrase : Phrase} {s s' : Lowering} {type : StaticType}
  {code : Code} {marks : List Nat}

theorem flows (named : ctx.Named) (h : Lowered ctx start phrase s type code marks s')
    (hs : s.Sound ctx) : Flows s.scope s'.scope start code := by
  induction h with
  | literal _ place =>
    rw [Lowering.scope_of_literal place]
    exact .straight fun i hi => by rw [Array.mem_singleton.1 hi]; rfl
  | read found => exact .load hs.names found
  | write stored place ih =>
    exact (ih hs).append (.store place) (stored.grows named).scope
      (Scope.extends_of_declare? place)
  | arithmetic first second ih₁ ih₂ =>
    have hgrows := first.grows named
    have hoperands := (ih₁ hs).append (ih₂ (hgrows.sound hs)) hgrows.scope
      (second.grows named).scope
    exact hoperands.append (.straight fun i hi => by rw [Array.mem_singleton.1 hi]; rfl)
      (hgrows.trans (second.grows named)).scope (.refl _)
  | branch tested taken ih₁ ih₂ =>
    have hgrows := tested.grows named
    rw [Array.append_assoc]
    exact (ih₁ hs).append (ih₂ (hgrows.sound hs)).skip hgrows.scope (taken.grows named).scope
  | branchElse tested taken other ih₁ ih₂ ih₃ =>
    have hgrows := tested.grows named
    have hgrows' := taken.grows named
    have hsound := hgrows.sound hs
    have hchoose := (ih₂ hsound).choose (ih₃ (hgrows'.sound hsound)) hgrows'.scope
      (other.grows named).scope
    have hall := (ih₁ hs).append hchoose hgrows.scope
      (hgrows'.trans (other.grows named)).scope
    simpa only [Array.append_assoc] using hall
  | @loop _ _ _ _ _ _ _ _ _ _ _ one _ _ _ _ counted slot unit repeated ih₁ ih₂ =>
    have hgrows := counted.grows named
    have hsound := hgrows.sound hs
    have hunit := Lowering.scope_of_literal unit
    have hslot : Lowering.Grows ctx _ _ := Lowering.grows_of_temporary? slot
    have hbody := ih₂ ((hslot.trans (Lowering.grows_of_literal unit)).sound hsound)
    have hext := (repeated.grows named).scope
    rw [hunit] at hbody hext
    have hloop := Flows.counting one hsound.names slot hbody hext
    have hall := (ih₁ hs).append hloop hgrows.scope
      (hslot.scope.trans hext)
    simpa only [Array.append_assoc] using hall
  | @each _ _ _ _ _ _ _ _ _ _ _ _ _ _ _ _ first _ one _ _ _ _ listed itemsSlot indexSlot itemSlot
      zero unit repeated ih₁ ih₂ =>
    have hgrows := listed.grows named
    have hsound := hgrows.sound hs
    have hslots : Lowering.Grows ctx _ _ := (Lowering.grows_of_temporary? itemsSlot).trans
      ((Lowering.grows_of_temporary? (s := ⟨_, _⟩) indexSlot).trans
        (Lowering.grows_of_declare? (s := ⟨_, _⟩) itemSlot))
    have hliterals : Lowering.Grows ctx _ _ := (Lowering.grows_of_literal zero).trans
      (Lowering.grows_of_literal unit)
    have hbody := ih₂ ((hslots.trans hliterals).sound hsound)
    have hext := (repeated.grows named).scope
    rw [Lowering.scope_of_literal unit, Lowering.scope_of_literal zero] at hbody hext
    have hloop := Flows.listing first one hsound.names itemsSlot indexSlot itemSlot hbody hext
    have hall := (ih₁ hs).append hloop hgrows.scope (hslots.scope.trans hext)
    simpa only [Array.append_assoc] using hall
  | block _ ih => exact ih hs
  | call bound passed made ih =>
    rw [Lowering.scope_of_target made]
    exact (ih hs).append (.straight fun i hi => by
      rw [Array.mem_singleton.1 hi]; exact isStraight_of_target made)
      (passed.grows named).scope (.refl _)
  | operand inner _ _ ih =>
    exact (ih hs).append (.straight fun i => isStraight_of_mem_expectation)
      (inner.grows named).scope (.refl _)
  | body inner ih =>
    exact (ih hs).append (.straight fun i => isStraight_of_mem_dropValue)
      (inner.grows named).scope (.refl _)
  | noStatements | noArguments => exact .straight (by simp)
  | statements first others ih₁ ih₂ =>
    have hgrows := first.grows named
    have hfirst := Flows.append (.straight fun i => isStraight_of_mem_dropValue) (ih₁ hs) (.refl _)
      hgrows.scope
    refine hfirst.append ?_ hgrows.scope (others.grows named).scope
    rw [Array.size_append, ← Nat.add_assoc]
    exact ih₂ (hgrows.sound hs)
  | arguments first others ih₁ ih₂ =>
    have hgrows := first.grows named
    exact (ih₁ hs).append (ih₂ (hgrows.sound hs)) hgrows.scope (others.grows named).scope

end Lowered

end EventScript
