import EventScript.Proofs.Codec.Decoded
import Mathlib

/-!
Variable-length integers. A reader takes up to five bytes of which just the last has its top bit
clear, and answers what their groups of seven bits denote, less the bits beyond the lowest 32. So an
integer below 2 ^ 32 is read at its value, however many bytes it was spread over, and a larger one
is reduced.
-/
namespace EventScript

namespace Wire

/-- Just the last byte has its top bit clear. -/
def Terminated (bytes : List UInt8) : Prop :=
  ∃ more last, bytes = more ++ [last] ∧ (∀ b ∈ more, 128 ≤ b.toNat) ∧ last.toNat < 128

/-- The number that the lowest seven bits of the bytes denote, the least significant group first. -/
def denoted (bytes : List UInt8) : Nat := Nat.ofDigits 128 (bytes.map fun b => b.toNat % 128)

theorem denoted_cons (b : UInt8) (bytes : List UInt8) :
    denoted (b :: bytes) = b.toNat % 128 + 128 * denoted bytes := by
  rw [denoted, denoted, List.map_cons, Nat.ofDigits_cons]

theorem not_terminated_nil : ¬Terminated [] := by
  rintro ⟨more, last, h, _⟩
  simp at h

theorem terminated_cons_iff {b : UInt8} {bytes : List UInt8} : Terminated (b :: bytes) ↔
    b.toNat < 128 ∧ bytes = [] ∨ 128 ≤ b.toNat ∧ Terminated bytes := by
  constructor
  · rintro ⟨_ | ⟨_, more⟩, last, h, hmore, hlast⟩
    · cases h
      exact .inl ⟨hlast, rfl⟩
    · cases h
      have hmore := List.forall_mem_cons.1 hmore
      exact .inr ⟨hmore.1, more, last, rfl, hmore.2, hlast⟩
  · rintro (⟨hb, rfl⟩ | ⟨hb, more, last, rfl, hmore, hlast⟩)
    · exact ⟨[], b, rfl, by simp, hb⟩
    · exact ⟨b :: more, last, rfl, List.forall_mem_cons.2 ⟨hb, hmore⟩, hlast⟩

/-- The reader goes over bytes of which just the last has its top bit clear, at most `left`. -/
structure GoesOver (left : Nat) (r : Reader) (group : List UInt8) (r' : Reader) : Prop where
  terminated : Terminated group
  length_le : group.length ≤ left
  bytes : r.bytes = group ++ r'.bytes
  position : r'.position = r.position + group.length

variable {left position : Nat} {b : UInt8} {bytes group : List UInt8} {r r' : Reader}

theorem not_goesOver_zero : ¬GoesOver 0 r group r' := fun h => by
  cases List.length_eq_zero_iff.1 (Nat.le_zero.1 h.length_le)
  exact not_terminated_nil h.terminated

theorem not_goesOver_nil : ¬GoesOver left ⟨[], position⟩ group r' := fun h => by
  cases (List.append_eq_nil_iff.1 h.bytes.symm).1
  exact not_terminated_nil h.terminated

theorem goesOver_cons_iff : GoesOver (left + 1) ⟨b :: bytes, position⟩ group r' ↔
    b.toNat < 128 ∧ group = [b] ∧ r' = ⟨bytes, position + 1⟩ ∨
      128 ≤ b.toNat ∧ ∃ rest, group = b :: rest ∧ GoesOver left ⟨bytes, position + 1⟩ rest r' := by
  obtain ⟨bytes', position'⟩ := r'
  constructor
  · rintro ⟨hterminated, hlength, hbytes, rfl⟩
    cases group with
    | nil => exact absurd hterminated not_terminated_nil
    | cons c rest =>
      obtain ⟨rfl, hbytes⟩ := List.cons.inj hbytes
      rcases terminated_cons_iff.1 hterminated with ⟨hb, rfl⟩ | ⟨hb, hrest⟩
      · exact .inl ⟨hb, rfl, by rw [hbytes]; rfl⟩
      · refine .inr ⟨hb, rest, rfl, hrest, Nat.le_of_succ_le_succ hlength, hbytes, ?_⟩
        simp only [List.length_cons]
        omega
  · rintro (⟨hb, rfl, ⟨⟩⟩ | ⟨hb, rest, rfl, hrest, hlength, hbytes, rfl⟩)
    · exact ⟨terminated_cons_iff.2 (.inl ⟨hb, rfl⟩), by simp, rfl, rfl⟩
    · exact ⟨terminated_cons_iff.2 (.inr ⟨hb, hrest⟩), Nat.succ_le_succ hlength,
        congrArg (b :: ·) hbytes, by simp; omega⟩

end Wire

namespace Decoder

open Wire

variable {r r' : Reader} {start left shift value n : Nat} {e : CodecError}

theorem onReader_byte_bind_nil (f : UInt8 → Decoder Nat) (position : Nat) :
    (byte >>= f).onReader ⟨[], position⟩ = (.error (.unexpectedEnd position), ⟨[], position⟩) :=
  rfl

theorem onReader_byte_bind_cons (f : UInt8 → Decoder Nat) (b : UInt8) (bytes : List UInt8)
    (position : Nat) :
    (byte >>= f).onReader ⟨b :: bytes, position⟩ = (f b).onReader ⟨bytes, position + 1⟩ := rfl

/-- The groups that are left are read at what they denote, above what was read before. -/
theorem varintGroups_eq_ok_iff :
    (varintGroups start left shift value).onReader r = (.ok n, r') ↔
      ∃ group, GoesOver left r group r' ∧ n = (value + denoted group <<< shift) % 2 ^ 32 := by
  induction left generalizing r shift value with
  | zero =>
    constructor
    · intro h
      cases h
    · rintro ⟨_, h, _⟩
      exact absurd h not_goesOver_zero
  | succ left ih =>
    rw [varintGroups]
    obtain ⟨_ | ⟨b, bytes⟩, position⟩ := r
    · rw [onReader_byte_bind_nil]
      constructor
      · intro h
        cases h
      · rintro ⟨_, h, _⟩
        exact absurd h not_goesOver_nil
    · rw [onReader_byte_bind_cons]
      simp only [goesOver_cons_iff]
      by_cases hb : b.toNat < 128
      · rw [if_pos hb, pure_eq_ok]
        have hdenoted : denoted [b] = b.toNat % 128 := by simp [denoted]
        constructor
        · rintro ⟨rfl, rfl⟩
          exact ⟨[b], .inl ⟨hb, rfl, rfl⟩, by rw [hdenoted]; rfl⟩
        · rintro ⟨group, ⟨_, rfl, rfl⟩ | ⟨hmore, _⟩, rfl⟩
          · exact ⟨by rw [hdenoted]; rfl, rfl⟩
          · omega
      · have hvalue (rest : List UInt8) : value + (b.toNat % 128) <<< shift +
            denoted rest <<< (shift + 7) = value + denoted (b :: rest) <<< shift := by
          rw [denoted_cons]
          simp only [Nat.shiftLeft_eq, Nat.pow_add]
          ring
        rw [if_neg hb]
        simp only [ih, hvalue]
        constructor
        · rintro ⟨rest, hrest, rfl⟩
          exact ⟨b :: rest, .inr ⟨Nat.not_lt.1 hb, rest, rfl, hrest⟩, rfl⟩
        · rintro ⟨group, ⟨hlast, _⟩ | ⟨_, rest, rfl, hrest⟩, rfl⟩
          · omega
          · exact ⟨rest, hrest, rfl⟩

/-- No integer is read where too few groups are left, or none of them is the last. -/
theorem varintGroups_eq_error_iff :
    ((varintGroups start left shift value).onReader r).1 = .error e ↔
      (∀ b ∈ r.bytes.take left, 128 ≤ b.toNat) ∧ e = if r.bytes.length < left
        then .unexpectedEnd (r.position + r.bytes.length) else .varintTooLong start := by
  induction left generalizing r shift value with
  | zero =>
    rw [varintGroups, onReader_fail]
    simp [eq_comm]
  | succ left ih =>
    rw [varintGroups]
    obtain ⟨_ | ⟨b, bytes⟩, position⟩ := r
    · rw [onReader_byte_bind_nil]
      simp [eq_comm]
    · rw [onReader_byte_bind_cons]
      by_cases hb : b.toNat < 128
      · rw [if_pos hb]
        simp
        omega
      · rw [if_neg hb, ih]
        simp [Nat.not_lt.1 hb, Nat.add_comm, Nat.add_left_comm]

/-- An integer is read just where one to five bytes go up to the first with its top bit clear, and
read as what their groups denote without the bits beyond the lowest 32: so at its value just if that
is below 2 ^ 32. Any other input is an error. What is written of an integer below 2 ^ 32 is read as
that integer, and nothing behind it is. -/
theorem varint_reads_denoted (r : Reader) :
    (∀ n r', varint.onReader r = (.ok n, r') ↔
      ∃ group, GoesOver 5 r group r' ∧ n = denoted group % 2 ^ 32) ∧
    (∀ group r', GoesOver 5 r group r' →
      (varint.onReader r = (.ok (denoted group), r') ↔ denoted group < 2 ^ 32)) ∧
    (∀ e, (varint.onReader r).1 = .error e ↔
      (∀ b ∈ r.bytes.take 5, 128 ≤ b.toNat) ∧ e = if r.bytes.length < 5
        then .unexpectedEnd (r.position + r.bytes.length) else .varintTooLong r.position) ∧
    ∀ (n : UInt32) rest, r.bytes = Wire.varint n.toNat ++ rest →
      varint.onReader r = (.ok n.toNat, ⟨rest, r.position + (Wire.varint n.toNat).length⟩) := by
  have hgroups : varint.onReader r = (varintGroups r.position 5 0 0).onReader r := by
    rw [varint, onReader_get_bind]
  have hread (n : Nat) (r' : Reader) : varint.onReader r = (.ok n, r') ↔
      ∃ group, GoesOver 5 r group r' ∧ n = denoted group % 2 ^ 32 := by
    rw [hgroups, varintGroups_eq_ok_iff]
    simp only [Nat.shiftLeft_zero, Nat.zero_add]
  refine ⟨hread, fun group r' hgroup => ?_, fun e => ?_, fun n rest hbytes => ?_⟩
  · have hreduced := (hread _ r').2 ⟨group, hgroup, rfl⟩
    rw [hreduced, Prod.mk.injEq, Except.ok.injEq, and_iff_left rfl]
    exact Nat.mod_eq_iff_lt (by decide)
  · rw [hgroups, varintGroups_eq_error_iff]
  · obtain ⟨bytes, position⟩ := r
    cases hbytes
    exact (delimits_varint n.toNat_lt).reads rest position

/-- Five groups that denote 2 ^ 32 + 7 are read as 7, as is a single group. -/
theorem varint_reads_denoted_reduced :
    denoted [0x87, 0x80, 0x80, 0x80, 0x10] = 2 ^ 32 + 7 ∧
    varint.onReader ⟨[0x87, 0x80, 0x80, 0x80, 0x10, 1], 0⟩ = (.ok 7, ⟨[1], 5⟩) ∧
    varint.onReader ⟨[7, 1], 0⟩ = (.ok 7, ⟨[1], 1⟩) := by
  have hreads (group : List UInt8) (hgroup : Terminated group) (hlength : group.length ≤ 5) :
      varint.onReader ⟨group ++ [1], 0⟩ = (.ok (denoted group % 2 ^ 32), ⟨[1], group.length⟩) :=
    ((varint_reads_denoted ⟨group ++ [1], 0⟩).1 _ _).2
      ⟨group, ⟨hgroup, hlength, rfl, (Nat.zero_add _).symm⟩, rfl⟩
  refine ⟨by decide, hreads [0x87, 0x80, 0x80, 0x80, 0x10] ?_ (by simp), ?_⟩
  · exact ⟨[0x87, 0x80, 0x80, 0x80], 0x10, rfl, by simp, by simp⟩
  · exact hreads [7] ⟨[], 7, rfl, by simp, by simp⟩ (by simp)

end Decoder

end EventScript
