import EventScript.Proofs.Codec.Delimited

/-!
Decoders that keep to their input: the reader goes over bytes it has, and errors report positions
that lie in what there is to read.
-/
namespace EventScript

/-- The position that an error reports. -/
def CodecError.position? : CodecError → Option Nat
  | .unexpectedEnd position | .varintTooLong position | .invalidUtf8 position => some position
  | _ => none

namespace Reader

variable {r r' r'' : Reader}

/-- The reader goes over some of its bytes. -/
def Advances (r r' : Reader) : Prop :=
  ∃ taken, r.bytes = taken ++ r'.bytes ∧ r'.position = r.position + taken.length

/-- Where the input ends. -/
def stop (r : Reader) : Nat := r.position + r.bytes.length

namespace Advances

theorem refl (r : Reader) : r.Advances r := ⟨[], rfl, rfl⟩

theorem trans (h : r.Advances r') (h' : r'.Advances r'') : r.Advances r'' := by
  obtain ⟨taken, hbytes, hposition⟩ := h
  obtain ⟨more, hbytes', hposition'⟩ := h'
  refine ⟨taken ++ more, by rw [hbytes, hbytes', List.append_assoc], ?_⟩
  rw [hposition', hposition, List.length_append, Nat.add_assoc]

theorem position_le (h : r.Advances r') : r.position ≤ r'.position := by
  obtain ⟨taken, _, hposition⟩ := h
  omega

theorem length_le (h : r.Advances r') : r'.bytes.length ≤ r.bytes.length := by
  obtain ⟨taken, hbytes, _⟩ := h
  rw [hbytes, List.length_append]
  omega

theorem stop_eq (h : r.Advances r') : r'.stop = r.stop := by
  obtain ⟨taken, hbytes, hposition⟩ := h
  rw [stop, stop, hbytes, hposition, List.length_append, Nat.add_assoc]

end Advances

end Reader

namespace Decoder

variable {α β : Type} {p : Decoder α} {start : Nat} {e : CodecError}

/-- Run at `start` or later, the decoder moves forward, whether it answers or fails, and an error
reports no position before `start` or after the end of the input. -/
structure Careful (start : Nat) (p : Decoder α) : Prop where
  advances : ∀ r : Reader, r.Advances (p.onReader r).2
  reports : ∀ r : Reader, start ≤ r.position → ∀ e position, (p.onReader r).1 = .error e →
    e.position? = some position → start ≤ position ∧ position ≤ r.stop

theorem careful_pure (a : α) : Careful start (pure a) := ⟨.refl, nofun⟩

theorem careful_fail (he : ∀ position, e.position? = some position → position = start) :
    Careful start (fail e : Decoder α) where
  advances := .refl
  reports r hr _ position h hposition := by
    cases h
    rw [he position hposition, Reader.stop]
    omega

theorem careful_bind {f : α → Decoder β} (hp : Careful start p) (hf : ∀ a, Careful start (f a)) :
    Careful start (p >>= f) where
  advances r := by
    have hp := hp.advances r
    rw [onReader_bind]
    generalize p.onReader r = run at hp ⊢
    obtain ⟨_ | a, r'⟩ := run
    · exact hp
    · exact hp.trans ((hf a).advances r')
  reports r hr e position h hposition := by
    have hadvances := hp.advances r
    have hreports := hp.reports r hr
    rw [onReader_bind] at h
    generalize p.onReader r = run at hadvances hreports h
    obtain ⟨_ | a, r'⟩ := run
    · cases h
      exact hreports _ _ rfl hposition
    · have hr' : start ≤ r'.position := hr.trans hadvances.position_le
      rw [← hadvances.stop_eq]
      exact (hf a).reports r' hr' e position h hposition

/-- A decoder that goes on from where it looked. -/
theorem careful_get {f : Reader → Decoder α} (hf : ∀ r, Careful r.position (f r)) :
    Careful start (get >>= f) where
  advances r := (hf r).advances r
  reports r hr e position h hposition := by
    have := (hf r).reports r (Nat.le_refl _) e position h hposition
    omega

theorem careful_byte : Careful start byte where
  advances := by
    rintro ⟨_ | ⟨b, bytes⟩, position⟩
    · exact .refl _
    · exact ⟨[b], rfl, rfl⟩
  reports := by
    rintro ⟨_ | ⟨b, bytes⟩, position⟩ hr e _ h hposition
    · cases h
      cases hposition
      exact ⟨hr, Nat.le_refl _⟩
    · cases h

theorem careful_exactly (n : Nat) : Careful start (exactly n) where
  advances r := by
    rw [onReader_exactly]
    split
    · refine ⟨r.bytes.take n, (List.take_append_drop n r.bytes).symm, ?_⟩
      rw [List.length_take_of_le (by assumption)]
    · exact .refl r
  reports r hr e position h hposition := by
    rw [onReader_exactly] at h
    split at h
    · cases h
    · cases h
      cases hposition
      exact ⟨by omega, Nat.le_refl _⟩

theorem careful_varintGroups (left shift value : Nat) :
    Careful start (varintGroups start left shift value) := by
  induction left generalizing shift value with
  | zero => exact careful_fail fun _ h => (Option.some.inj h).symm
  | succ left ih =>
    refine careful_bind careful_byte fun b => ?_
    split
    · exact careful_pure _
    · exact ih _ _

theorem careful_varint : Careful start varint := careful_get fun _ => careful_varintGroups 5 0 0

theorem careful_number : Careful start number :=
  careful_bind (careful_exactly 8) fun _ => careful_pure _

theorem careful_string : Careful start string := by
  refine careful_bind careful_varint fun length => careful_get fun r => ?_
  refine careful_bind (careful_exactly length) fun bytes => ?_
  split
  · exact careful_pure _
  · exact careful_fail fun _ h => (Option.some.inj h).symm

theorem careful_segment : Careful start segment :=
  careful_bind careful_varint fun _ => careful_bind careful_string fun _ => careful_pure _

end Decoder

end EventScript
