import EventScript.Datum.Decoding
import EventScript.Datum.Encoding
import EventScript.Proofs.Outcome
import Mathlib.Tactic.Ring

/-!
Decoders that know where to stop. A decoder delimits a byte string if it takes just these bytes,
whatever follows them, and reports the end of the input at the cut where they are cut short. The
pieces of the format are delimited, and sequences of delimited pieces are.
-/
namespace EventScript

namespace Wire

private theorem shiftRight_shiftLeft_or (w : UInt64) :
    ((w >>> 8) <<< 8) ||| w.toUInt8.toUInt64 = w := by
  apply UInt64.toNat_inj.1
  have hw := w.toNat_lt
  have hlow : w.toUInt8.toNat = w.toNat % 2 ^ 8 := by simp
  have hhigh : ((w >>> 8) <<< 8).toNat = 2 ^ 8 * (w.toNat / 2 ^ 8) := by
    simp [Nat.shiftRight_eq_div_pow, Nat.shiftLeft_eq]
    omega
  rw [UInt64.toNat_or, UInt8.toNat_toUInt64, hhigh, hlow,
    ← Nat.two_pow_add_eq_or_of_lt (Nat.mod_lt _ (by decide)), Nat.div_add_mod]

private theorem shiftLeft_or_byte (w : UInt64) {s t : UInt64} (h : t.toNat = s.toNat + 8)
    (ht : t.toNat < 64) : ((w >>> t) <<< 8) ||| (w >>> s).toUInt8.toUInt64 = w >>> s := by
  have : w >>> t = (w >>> s) >>> 8 := by
    apply UInt64.toNat_inj.1
    have hs : s.toNat % 64 = s.toNat := Nat.mod_eq_of_lt (by omega)
    have ht : t.toNat % 64 = s.toNat + 8 := by omega
    simp [ht, hs, Nat.shiftRight_add]
  rw [this, shiftRight_shiftLeft_or]

@[simp] theorem length_word (w : UInt64) : (word w).length = 8 := rfl

@[simp] theorem ofBytes_word (w : UInt64) : ofBytes (word w) = w := by
  have first : ((0 : UInt64) <<< 8) ||| (w >>> 56).toUInt8.toUInt64 = w >>> 56 := by
    apply UInt64.toNat_inj.1
    have := w.toNat_lt
    simp [Nat.shiftRight_eq_div_pow]
    omega
  simp only [word, ofBytes, List.map_cons, List.map_nil, List.foldl_cons, List.foldl_nil, first]
  rw [shiftLeft_or_byte (s := 48), shiftLeft_or_byte (s := 40), shiftLeft_or_byte (s := 32),
    shiftLeft_or_byte (s := 24), shiftLeft_or_byte (s := 16), shiftLeft_or_byte (s := 8),
    shiftLeft_or_byte (s := 0)]
  · simp
  all_goals decide

@[simp] theorem fromUTF8?_utf8 (s : String) : String.fromUTF8? ⟨(utf8 s).toArray⟩ = some s := by
  have : (⟨(utf8 s).toArray⟩ : ByteArray) = s.toByteArray := by
    simp [utf8, String.toUTF8]
  rw [this, String.fromUTF8?, dif_pos s.isValidUTF8]
  rfl

theorem utf8_of_fromUTF8? {bytes : List UInt8} {s : String}
    (h : String.fromUTF8? ⟨bytes.toArray⟩ = some s) : utf8 s = bytes := by
  unfold String.fromUTF8? at h
  split at h
  · cases h
    simp [utf8, String.toUTF8, String.fromUTF8]
  · cases h

end Wire

/-- A segment as it comes back: the last color there is comes back as the one before it. -/
def Segment.reread (s : Segment) : Segment :=
  ⟨s.content, s.color.map fun color => if color = 0xffffffff then 0xfffffffe else color⟩

namespace Decoder

variable {α β : Type} {p : Decoder α} {r : Reader} {a : α} {b : β} {bytes more : List UInt8}

/-- What the decoder answers at a reader, and the reader after it. -/
def onReader (p : Decoder α) (r : Reader) : Except CodecError α × Reader := p.run.run r

@[simp] theorem onReader_pure (a : α) : (pure a : Decoder α).onReader r = (.ok a, r) := rfl

@[simp] theorem onReader_fail (e : CodecError) :
    (fail e : Decoder α).onReader r = (.error e, r) := rfl

theorem onReader_bind (f : α → Decoder β) : (p >>= f).onReader r =
    match p.onReader r with
    | (.ok a, r') => (f a).onReader r'
    | (.error e, r') => (.error e, r') := by
  change (match p r with
    | (x, r') => ExceptT.bindCont f x r') = match p r with
    | (.ok a, r') => (f a).onReader r'
    | (.error e, r') => (.error e, r')
  rcases p r with ⟨_ | _, r'⟩ <;> rfl

theorem onReader_bind_of_error {f : α → Decoder β} {e : CodecError}
    (h : (p.onReader r).1 = .error e) : ((p >>= f).onReader r).1 = .error e := by
  rw [onReader_bind]
  rcases hp : p.onReader r with ⟨_ | _, _⟩ <;> simp_all

@[simp] theorem onReader_get_bind (f : Reader → Decoder β) :
    ((get : Decoder Reader) >>= f).onReader r = (f r).onReader r := rfl

theorem onReader_exactly (n : Nat) : (exactly n).onReader r =
    if n ≤ r.bytes.length then (.ok (r.bytes.take n), ⟨r.bytes.drop n, r.position + n⟩)
    else (.error (.unexpectedEnd (r.position + r.bytes.length)), r) := by
  simp only [exactly, onReader_get_bind, List.length_take, min_eq_left_iff]
  split
  · rfl
  · rfl

/-- Whatever follows, the decoder takes just these bytes and answers `a`; where they are cut short
it reports the end of the input, at the cut. -/
structure Delimits (p : Decoder α) (bytes : List UInt8) (a : α) : Prop where
  reads : ∀ rest position,
    p.onReader ⟨bytes ++ rest, position⟩ = (.ok a, ⟨rest, position + bytes.length⟩)
  starves : ∀ part missing position, bytes = part ++ missing → missing ≠ [] →
    (p.onReader ⟨part, position⟩).1 = .error (.unexpectedEnd (position + part.length))

theorem delimits_pure (a : α) : (pure a : Decoder α).Delimits [] a where
  reads := fun _ _ => rfl
  starves := fun _ _ _ h hne => absurd (List.append_eq_nil_iff.1 h.symm).2 hne

theorem Delimits.bind {f : α → Decoder β} (hp : p.Delimits bytes a) (hf : (f a).Delimits more b) :
    (p >>= f).Delimits (bytes ++ more) b where
  reads rest position := by
    rw [onReader_bind, List.append_assoc, hp.reads, List.length_append, ← Nat.add_assoc]
    exact hf.reads rest _
  starves part missing position h hne := by
    -- The cut falls behind the first piece, at its end, or inside it.
    rcases List.append_eq_append_iff.1 h with ⟨tail, rfl, hmore⟩ | ⟨gap, hbytes, hmissing⟩
    · rw [onReader_bind, hp.reads]
      have := hf.starves tail missing (position + bytes.length) hmore hne
      simpa [Nat.add_assoc] using this
    · by_cases hgap : gap = []
      · have hpart : part = bytes ++ [] := by simp [hbytes, hgap]
        rw [onReader_bind, hpart, hp.reads]
        have := hf.starves [] missing (position + bytes.length) (by simp [hmissing, hgap]) hne
        simpa using this
      · exact onReader_bind_of_error (hp.starves part gap position hbytes hgap)

theorem Delimits.bind_pure {f : α → Decoder β} (hp : p.Delimits bytes a) (hf : f a = pure b) :
    (p >>= f).Delimits bytes b := by
  have hpure : (f a).Delimits [] b := hf ▸ delimits_pure b
  have := hp.bind hpure
  rwa [List.append_nil] at this

/-- A decoder that looks where it is before it reads. -/
theorem delimits_get {f : Reader → Decoder α} (h : ∀ r, (f r).Delimits bytes a) :
    (get >>= f).Delimits bytes a where
  reads rest position := (h _).reads rest position
  starves part missing position := (h _).starves part missing position

theorem delimits_byte (b : UInt8) : byte.Delimits [b] b where
  reads := fun _ _ => rfl
  starves part missing position h hne := by
    rcases List.append_eq_singleton_iff.1 h.symm with ⟨rfl, _⟩ | ⟨_, rfl⟩
    · rfl
    · exact absurd rfl hne

theorem delimits_exactly {n : Nat} (h : bytes.length = n) : (exactly n).Delimits bytes bytes where
  reads rest position := by
    subst h
    simp [onReader_exactly]
  starves part missing position hcut hne := by
    have hshort : ¬n ≤ part.length := by
      subst h
      simpa [hcut] using hne
    simp [onReader_exactly, hshort]

theorem delimits_varintGroups (start : Nat) {left shift value n : Nat} (hn : n < 128 ^ left)
    (hleft : 0 < left) : (varintGroups start left shift value).Delimits (Wire.varint n)
      ((value + n <<< shift) % 0x100000000) := by
  induction left generalizing shift value n with
  | zero => omega
  | succ left ih =>
    rw [varintGroups, Wire.varint]
    split
    · rename_i hsmall
      have hb : n.toUInt8.toNat = n := by simp; omega
      refine (delimits_byte n.toUInt8).bind_pure ?_
      simp only [hb, Nat.mod_eq_of_lt hsmall, hsmall, if_true]
    · rename_i hbig
      have hb : (n % 128 + 128).toUInt8.toNat = n % 128 + 128 := by simp; omega
      have hrest : n / 128 < 128 ^ left := by
        rw [Nat.pow_succ] at hn
        omega
      have hpos : 0 < left := by
        rcases left with _ | left
        · simp at hrest; omega
        · omega
      have hvalue : value + n <<< shift =
          (value + (n % 128) <<< shift) + (n / 128) <<< (shift + 7) := by
        conv_lhs => rw [← Nat.div_add_mod n 128]
        simp only [Nat.shiftLeft_eq, Nat.pow_add]
        ring
      have hmore : ¬n % 128 + 128 < 128 := by omega
      refine (delimits_byte _).bind (?_ : Delimits _ (Wire.varint (n / 128)) _)
      rw [hvalue, hb, Nat.add_mod_right, Nat.mod_mod, if_neg hmore]
      exact ih hrest hpos

theorem delimits_varint {n : Nat} (h : n < Wire.lengthLimit) :
    varint.Delimits (Wire.varint n) n := by
  refine delimits_get fun r => ?_
  have hfits : n < 128 ^ 5 := by
    simp only [Wire.lengthLimit] at h
    omega
  have hmod : n % 0x100000000 = n := Nat.mod_eq_of_lt h
  have hgroups : (varintGroups r.position 5 0 0).Delimits (Wire.varint n) _ :=
    delimits_varintGroups r.position hfits (by decide)
  rwa [Nat.shiftLeft_zero, Nat.zero_add, hmod] at hgroups

theorem delimits_number (n : Number) : number.Delimits (Wire.number n) n :=
  (delimits_exactly (Wire.length_word n.bits)).bind_pure (by simp)

theorem delimits_string {s : String} (h : (Wire.utf8 s).length < Wire.lengthLimit) :
    string.Delimits (Wire.varint (Wire.utf8 s).length ++ Wire.utf8 s) s := by
  refine (delimits_varint h).bind (delimits_get fun r => ?_)
  exact (delimits_exactly rfl).bind_pure (by simp)

theorem delimits_segment {s : Segment} (h : (Wire.utf8 s.content).length < Wire.lengthLimit) :
    segment.Delimits (Wire.color s.color ++ (Wire.varint (Wire.utf8 s.content).length ++
      Wire.utf8 s.content)) s.reread := by
  obtain ⟨content, color⟩ := s
  cases color with
  | none =>
    exact (delimits_varint (n := 0) (by decide)).bind ((delimits_string h).bind_pure rfl)
  | some c =>
    have hc := c.toNat_lt
    have hn : min (c.toNat + 1) 0xffffffff < Wire.lengthLimit := by
      simp only [Wire.lengthLimit]
      omega
    refine (delimits_varint hn).bind ((delimits_string h).bind_pure ?_)
    have hne : min (c.toNat + 1) 0xffffffff ≠ 0 := by omega
    simp only [Segment.reread, Option.map_some, hne, if_false]
    congr 3
    by_cases hlast : c = 0xffffffff
    · subst hlast
      rfl
    · have hlt : c.toNat ≠ 0xffffffff := fun h => hlast (UInt32.toNat_inj.1 h)
      have hmin : min (c.toNat + 1) 0xffffffff - 1 = c.toNat := by omega
      simp [hmin, hlast]

/-- A count's worth of items, each of which is delimited by its own piece. -/
theorem delimits_many {item : Decoder α} {pieces : List (List UInt8)} {as : List α}
    (h : List.Forall₂ item.Delimits pieces as) (read : List α) :
    (many item as.length read).Delimits pieces.flatten (read.reverse ++ as) := by
  induction h generalizing read with
  | nil =>
    rw [List.append_nil]
    exact delimits_pure _
  | @cons piece a pieces as first _ ih =>
    have := first.bind (f := fun a => many item as.length (a :: read)) (ih (a :: read))
    rw [List.reverse_cons, List.append_assoc] at this
    exact this

/-! ### Whole inputs -/

theorem runAll_eq (p : Decoder α) (bytes : List UInt8) :
    p.runAll bytes = match p.onReader ⟨bytes, 0⟩ with
      | (.ok a, r) => if r.bytes.isEmpty then .ok a else .error (.trailingBytes r.remaining)
      | (.error e, _) => .error e := by
  change ((p >>= fun a => finish >>= fun _ => pure a).onReader ⟨bytes, 0⟩).1 = _
  rw [onReader_bind]
  rcases p.onReader ⟨bytes, 0⟩ with ⟨_ | a, r⟩
  · rfl
  · have hfinish : finish.onReader r =
        (if r.bytes.isEmpty then .ok () else .error (.trailingBytes r.remaining), r) := by
      rw [finish, onReader_get_bind]
      split <;> rfl
    simp only [onReader_bind, hfinish]
    cases r.bytes.isEmpty <;> rfl

theorem runAll_eq_ok : p.runAll bytes = .ok a ↔
    ∃ r, p.onReader ⟨bytes, 0⟩ = (.ok a, r) ∧ r.bytes = [] := by
  rw [runAll_eq]
  rcases p.onReader ⟨bytes, 0⟩ with ⟨_ | a', r⟩
  · simp
  · simp
    grind

theorem Delimits.runAll (h : p.Delimits bytes a) : p.runAll bytes = .ok a :=
  runAll_eq_ok.2 ⟨_, by simpa using h.reads [] 0, rfl⟩

theorem Delimits.runAll_append (h : p.Delimits bytes a) {rest : List UInt8} (hrest : rest ≠ []) :
    p.runAll (bytes ++ rest) = .error (.trailingBytes rest.length) := by
  have hmore : rest.isEmpty = false := by simpa using hrest
  rw [runAll_eq, h.reads rest 0]
  simp [hmore, Reader.remaining]

theorem Delimits.runAll_part (h : p.Delimits bytes a) {part missing : List UInt8}
    (hcut : bytes = part ++ missing) (hmissing : missing ≠ []) :
    p.runAll part = .error (.unexpectedEnd part.length) := by
  have hstarves := h.starves part missing 0 hcut hmissing
  rw [runAll_eq]
  rcases hread : p.onReader ⟨part, 0⟩ with ⟨e | a', r⟩
  · simpa [hread] using hstarves
  · simp [hread] at hstarves

end Decoder

end EventScript
