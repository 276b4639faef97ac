import EventScript.Text.Hex
import Mathlib

/-!
Hexadecimal digits and the numbers they denote, and that what is written is read back.
-/
namespace EventScript.Text.Hex

/-- The digits in the order of their values. -/
def alphabet : List Char :=
  ['0', '1', '2', '3', '4', '5', '6', '7', '8', '9', 'a', 'b', 'c', 'd', 'e', 'f']

/-- The value of a digit, of either case. -/
def value? (c : Char) : Option Nat := alphabet.idxOf? c.toLower

/-- The number that digits denote, the most significant one first. -/
def denoted? (cs : List Char) : Option Nat :=
  (cs.mapM value?).map fun values => Nat.ofDigits 16 values.reverse

section

variable {c : Char} {cs : List Char} {n : Nat}

theorem toNat_lt_of_digit? (h : digit? c = some n) : c.toNat < 128 := by
  have hle {d : Char} (hd : d.toNat < 128) (h : c ≤ d) : c.toNat < 128 :=
    Nat.lt_of_le_of_lt (UInt32.le_iff_toNat_le.1 h) hd
  unfold digit? at h
  simp only [Bool.and_eq_true, decide_eq_true_eq] at h
  split at h
  · exact hle (d := '9') (by decide) (by tauto)
  · split at h
    · exact hle (d := 'f') (by decide) (by tauto)
    · split at h
      · exact hle (d := 'F') (by decide) (by tauto)
      · cases h

theorem value?_eq_some_iff : value? c = some n ↔ alphabet[n]? = some c.toLower := by
  unfold value? List.idxOf?
  rw [List.findIdx?_eq_some_iff_getElem, List.getElem?_eq_some_iff]
  constructor
  · rintro ⟨hn, heq, -⟩
    exact ⟨hn, beq_iff_eq.1 heq⟩
  · rintro ⟨hn, heq⟩
    refine ⟨hn, beq_iff_eq.2 heq, fun j hj hjeq => ?_⟩
    have hnodup : alphabet.Nodup := by decide
    exact hj.ne (hnodup.getElem_inj_iff.1 ((beq_iff_eq.1 hjeq).trans heq.symm))

theorem value?_lt (h : value? c = some n) : n < 16 :=
  (List.getElem?_eq_some_iff.1 (value?_eq_some_iff.1 h)).1

theorem toNat_lt_of_value? (h : value? c = some n) : c.toNat < 128 := by
  have hmem : c.toLower ∈ alphabet := List.mem_of_getElem? (value?_eq_some_iff.1 h)
  have hall : ∀ d ∈ alphabet, d.toNat < 128 := by simp [alphabet]
  have hlower := hall _ hmem
  by_cases hupper : 'A'.val ≤ c.val ∧ c.val ≤ 'Z'.val
  · exact Nat.lt_of_le_of_lt (UInt32.le_iff_toNat_le.1 hupper.2) (by decide)
  · rwa [Char.toLower, dif_neg (by simpa using hupper)] at hlower

/-- The digits are those of the alphabet. -/
theorem digit?_eq_value? (c : Char) : digit? c = value? c := by
  by_cases hc : c.toNat < 128
  · have hall : ∀ n < 128, digit? (Char.ofNat n) = value? (Char.ofNat n) := by decide +kernel
    simpa using hall c.toNat hc
  · cases hdigit : digit? c with
    | some n => exact absurd (toNat_lt_of_digit? hdigit) hc
    | none =>
      cases hvalue : value? c with
      | some n => exact absurd (toNat_lt_of_value? hvalue) hc
      | none => rfl

theorem value?_of_mapM {values : List Nat} (h : cs.mapM value? = some values) (hc : c ∈ cs) :
    ∃ d, value? c = some d := by
  induction cs generalizing values with
  | nil => cases hc
  | cons b cs ih =>
    rw [List.mapM_cons] at h
    obtain ⟨d, hd, h⟩ := Option.bind_eq_some_iff.1 h
    obtain ⟨values, hvalues, -⟩ := Option.bind_eq_some_iff.1 h
    rcases List.mem_cons.1 hc with rfl | hc
    · exact ⟨d, hd⟩
    · exact ih hvalues hc

theorem value?_of_denoted? (h : denoted? cs = some n) (hc : c ∈ cs) : ∃ d, value? c = some d := by
  obtain ⟨values, h, -⟩ := Option.map_eq_some_iff.1 h
  exact value?_of_mapM h hc

theorem read?_eq_denoted? (cs : List Char) : read? cs = denoted? cs := by
  have hfold (m : Nat) : cs.foldlM (fun n c => (value? c).map (16 * n + ·)) m =
      (cs.mapM value?).map fun values =>
        m * 16 ^ values.length + Nat.ofDigits 16 values.reverse := by
    induction cs generalizing m with
    | nil => simp
    | cons c cs ih =>
      rw [List.foldlM_cons, List.mapM_cons]
      cases value? c with
      | none => rfl
      | some d =>
        cases hcs : cs.mapM value? with
        | none => simp [ih, hcs]
        | some values =>
          simp [ih, hcs, Nat.ofDigits_append, pow_succ]
          ring
  simp only [read?, digit?_eq_value?, hfold, denoted?, Nat.zero_mul, Nat.zero_add]

theorem digit?_lt {d : Nat} (h : digit? c = some d) : d < 16 := value?_lt (digit?_eq_value? c ▸ h)

theorem read?_lt (h : read? cs = some n) : n < 16 ^ cs.length := by
  have hfold (m : Nat) (h : cs.foldlM (fun n c => (digit? c).map (16 * n + ·)) m = some n) :
      n < (m + 1) * 16 ^ cs.length := by
    clear * - h
    induction cs generalizing m with
    | nil =>
      cases h
      simp
    | cons c cs ih =>
      rw [List.foldlM_cons] at h
      obtain ⟨m', hm', h⟩ := Option.bind_eq_some_iff.1 h
      obtain ⟨d, hd, rfl⟩ := Option.map_eq_some_iff.1 hm'
      have hlt := ih _ h
      have hd := digit?_lt hd
      calc n < (16 * m + d + 1) * 16 ^ cs.length := hlt
        _ ≤ (16 * (m + 1)) * 16 ^ cs.length := Nat.mul_le_mul_right _ (by omega)
        _ = (m + 1) * 16 ^ (cs.length + 1) := by ring
  simpa using hfold 0 h

/-! ### What is written -/

@[simp] theorem length_lowDigits (width n : Nat) : (lowDigits width n).length = width := by
  induction width generalizing n with
  | zero => rfl
  | succ width ih => rw [lowDigits, List.length_cons, ih]

theorem length_fixed (width n : Nat) : (fixed width n).length = width := by simp [fixed]

theorem digit?_digitChar {d : Nat} (h : d < 16) : digit? (Nat.digitChar d) = some d := by
  have hall : ∀ d < 16, digit? (Nat.digitChar d) = some d := by decide
  exact hall d h

theorem read?_fixed {width n : Nat} (h : n < 16 ^ width) : read? (fixed width n) = some n := by
  induction width generalizing n with
  | zero =>
    have : n = 0 := by simpa using h
    rw [this]
    rfl
  | succ width ih =>
    have hhigh : n / 16 < 16 ^ width := Nat.div_lt_of_lt_mul (by rwa [pow_succ'] at h)
    have ih : (fixed width (n / 16)).foldlM (fun n c => (digit? c).map (16 * n + ·)) 0 = _ :=
      ih hhigh
    rw [read?, fixed, lowDigits, List.reverse_cons, List.foldlM_append, ← fixed, ih]
    simp [digit?_digitChar (Nat.mod_lt n (by decide : 16 > 0)), Nat.div_add_mod]

/-- A number that fits is padded to just this width. -/
theorem padded_of_lt {width n : Nat} (hwidth : 0 < width) (h : n < 16 ^ width) :
    padded width n = fixed width n := by
  have hlog : n.log2 / 4 + 1 ≤ width := by
    by_cases hn : n = 0
    · simp only [hn, Nat.log2_zero, Nat.zero_div]
      omega
    · have : n.log2 < 4 * width := by
        rw [Nat.log2_lt hn, pow_mul]
        exact h
      omega
  rw [padded, Nat.max_eq_left hlog]

end

end EventScript.Text.Hex
