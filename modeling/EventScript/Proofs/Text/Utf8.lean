import EventScript.Datum.Wire
import Mathlib.Tactic.SplitIfs

/-!
The order of strings is the order of their bytes: UTF-8 keeps the order of characters.
-/
namespace EventScript.Wire

/-- A number by its groups of six bits, the first group with all the bits above. -/
private theorem exists_groups (n : Nat) : ∃ a b c d, b < 64 ∧ c < 64 ∧ d < 64 ∧
    n / 262144 = a ∧ n / 4096 = 64 * a + b ∧ n / 64 = 64 * (64 * a + b) + c ∧ n % 64 = d ∧
    n = 64 * (64 * (64 * a + b) + c) + d :=
  ⟨n / 262144, n / 4096 % 64, n / 64 % 64, n % 64, by omega⟩

/-- Of two characters the lower one has the lower bytes, whatever follows them. -/
theorem utf8EncodeChar_append_lt {c d : Char} (h : c < d) (xs ys : List UInt8) :
    String.utf8EncodeChar c ++ xs < String.utf8EncodeChar d ++ ys := by
  have hlt : c.val.toNat < d.val.toNat := h
  have hd : d.val.toNat < 0x110000 := by rcases d.valid with h | h <;> omega
  simp only [String.utf8EncodeChar]
  generalize c.val.toNat = m at *
  generalize d.val.toNat = n at *
  obtain ⟨a, b, c, d, hb, hc, hd, ha, hab, habc, hlast, hm⟩ := exists_groups m
  obtain ⟨a', b', c', d', hb', hc', hd', ha', hab', habc', hlast', hn⟩ := exists_groups n
  -- One to four bytes each. The first byte tells the length, and is lower for fewer bytes.
  split_ifs <;>
    simp (disch := omega) only [List.cons_append, List.nil_append, List.cons_lt_cons_iff,
      UInt8.lt_iff_toNat_lt, ← UInt8.toNat_inj, UInt8.toNat_ofNat', ha, hab, habc, hlast, ha', hab',
      habc', hlast', Nat.mul_add_mod, Nat.mod_eq_of_lt] <;>
    omega

theorem utf8_eq_flatMap (s : String) : utf8 s = s.toList.flatMap String.utf8EncodeChar := by
  have : s.toList.utf8Encode = s.toByteArray := by simp
  rw [utf8, String.toUTF8, ← this, List.utf8Encode]
  simp

theorem utf8_lt_utf8 {s t : String} (h : s < t) : utf8 s < utf8 t := by
  rw [utf8_eq_flatMap, utf8_eq_flatMap]
  rw [String.lt_iff] at h
  generalize s.toList = cs at *
  generalize t.toList = ds at *
  induction h with
  | @nil d ds =>
    obtain ⟨b, bs, hd⟩ := List.exists_cons_of_ne_nil (String.utf8EncodeChar_ne_nil (c := d))
    rw [List.flatMap_cons, hd]
    exact .nil
  | rel hlt => exact utf8EncodeChar_append_lt hlt _ _
  | cons _ ih => exact List.append_left_lt ih

end EventScript.Wire
