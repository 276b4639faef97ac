import EventScript.Proofs.Codec.Delimited

/-!
Decoders that keep an account of what they set out to read. Without the account they are the
decoders of the format.
-/
namespace EventScript

/-- What a decoder sets out to read, and its position then: a value inside `depth` containers, or a
segment of a text. -/
inductive Attempt where
  | value (depth position : Nat)
  | segment (position : Nat)

namespace Attempt

def position : Attempt → Nat
  | value _ position => position
  | segment position => position

def isValue : Attempt → Bool
  | value .. => true
  | segment _ => false

def isSegment : Attempt → Bool
  | value .. => false
  | segment _ => true

end Attempt

/-- What a decoder answers at a reader, the reader after it, and what it set out to read. -/
def Recording (α : Type) := Reader → (Except CodecError α × Reader) × List Attempt

namespace Recording

variable {α β : Type} {q : Recording α} {p : Decoder α}

/-- A decoder of which nothing is put on record. -/
def ofDecoder (p : Decoder α) : Recording α := fun r => (p.onReader r, [])

instance : Monad Recording where
  pure a := fun r => ((.ok a, r), [])
  bind q f := fun r =>
    match q r with
    | ((.ok a, r'), record) => ((f a r').1, record ++ (f a r').2)
    | ((.error e, r'), record) => ((.error e, r'), record)

instance : MonadLift Decoder Recording := ⟨ofDecoder⟩

/-- Puts on record what is set out for at the reader's position. -/
def attempt (what : Nat → Attempt) : Recording Unit := fun r => ((.ok (), r), [what r.position])

def many (item : Recording α) : (count : Nat) → (read : List α) → Recording (List α)
  | 0, read => return read.reverse
  | count + 1, read => do
    let a ← item
    many item count (a :: read)

def segment : Recording Segment := do
  attempt .segment
  Decoder.segment

def entry (item : Recording Datum) : Recording (Datum × Datum) := do
  let key ← item
  let value ← item
  return (key, value)

def datumTo : (levels : Nat) → Recording Datum
  | 0 => do
    attempt (.value (Wire.maxDepth + 1))
    (Decoder.fail .tooDeep : Decoder Datum)
  | levels + 1 => do
    attempt (.value (Wire.maxDepth - levels))
    match ← Decoder.varint with
    | Wire.numberTag => return .number (← Decoder.number)
    | Wire.stringTag => return .string (← Decoder.string)
    | Wire.listTag => return .list (← many (datumTo levels) (← Decoder.varint) [])
    | Wire.dictTag => return .ofEntries (← many (entry (datumTo levels)) (← Decoder.varint) [])
    | Wire.structTag => return .struct (← many (datumTo levels) (← Decoder.varint) [])
    | Wire.vectorTag =>
      let x ← Decoder.number
      let y ← Decoder.number
      let z ← Decoder.number
      return .vector ⟨x, y, z⟩
    | Wire.uuidTag =>
      let bytes ← Decoder.exactly 16
      return .uuid ⟨Wire.ofBytes (bytes.take 8), Wire.ofBytes (bytes.drop 8)⟩
    | Wire.textTag => return .text (.ofSegments (← many segment (← Decoder.varint) []))
    | tag => (Decoder.fail (.unknownTag tag) : Decoder Datum)

def datum : Recording Datum := datumTo (Wire.maxDepth + 1)

/-! ### Runs -/

theorem lift_apply (p : Decoder α) (r : Reader) :
    (liftM p : Recording α) r = (p.onReader r, []) := rfl

theorem bind_apply (q : Recording α) (f : α → Recording β) (r : Reader) :
    (q >>= f) r = match q r with
      | ((.ok a, r'), record) => ((f a r').1, record ++ (f a r').2)
      | ((.error e, r'), record) => ((.error e, r'), record) := rfl

theorem attempt_bind_apply (what : Nat → Attempt) (q : Recording α) (r : Reader) :
    (attempt what >>= fun _ => q) r = ((q r).1, what r.position :: (q r).2) := rfl

theorem attempt_bind_bind (what : Nat → Attempt) (q : Recording α) (f : α → Recording β) :
    (attempt what >>= fun _ => q >>= f) = ((attempt what >>= fun _ => q) >>= f) := by
  funext r
  rw [attempt_bind_apply, bind_apply, bind_apply, attempt_bind_apply]
  rcases q r with ⟨⟨_ | _, _⟩, _⟩ <;> rfl

/-! ### Without the account -/

/-- Without the account it is this decoder. -/
def Records (q : Recording α) (p : Decoder α) : Prop := ∀ r, (q r).1 = p.onReader r

theorem records_ofDecoder (p : Decoder α) : Records (ofDecoder p) p := fun _ => rfl

theorem records_pure (a : α) : Records (pure a) (pure a) := fun _ => rfl

theorem records_attempt {what : Nat → Attempt} (hq : Records q p) :
    Records (attempt what >>= fun _ => q) p := fun r => hq r

theorem records_bind {g : α → Recording β} {f : α → Decoder β} (hq : Records q p)
    (hg : ∀ a, Records (g a) (f a)) : Records (q >>= g) (p >>= f) := fun r => by
  have hq := hq r
  rw [Decoder.onReader_bind, ← hq, bind_apply]
  rcases q r with ⟨⟨_ | a, r'⟩, record⟩
  · rfl
  · exact hg a r'

theorem records_many (hq : Records q p) (count : Nat) (read : List α) :
    Records (many q count read) (Decoder.many p count read) := by
  induction count generalizing read with
  | zero => exact records_pure _
  | succ count ih => exact records_bind hq fun a => ih (a :: read)

theorem records_segment : Records segment Decoder.segment := records_attempt (records_ofDecoder _)

theorem records_entry {item : Recording Datum} {decoder : Decoder Datum}
    (hitem : Records item decoder) : Records (entry item) (Decoder.entry decoder) :=
  records_bind hitem fun _ => records_bind hitem fun _ => records_pure _

theorem records_datumTo (levels : Nat) : Records (datumTo levels) (Decoder.datumTo levels) := by
  induction levels with
  | zero => exact records_attempt (records_ofDecoder _)
  | succ levels inner =>
    have lift {α : Type} (p : Decoder α) : Records (liftM p) p := records_ofDecoder p
    have counted {α : Type} {item : Recording α} {decoder : Decoder α}
        (hitem : Records item decoder) (of : List α → Datum) :
        Records (do return of (← many item (← Decoder.varint) []))
          (do return of (← Decoder.many decoder (← Decoder.varint) [])) :=
      records_bind (lift _) fun _ => records_bind (records_many hitem _ _) fun _ => records_pure _
    rw [datumTo, Decoder.datumTo]
    refine records_attempt (records_bind (lift _) fun tag => ?_)
    -- Both decoders go on by the tag: each known one, and then all others alike.
    rcases tag with _ | _ | _ | _ | _ | _ | _ | _ | _ | tag
    · exact lift _
    · exact records_bind (lift _) fun _ => records_pure _
    · exact records_bind (lift _) fun _ => records_pure _
    · exact counted inner .list
    · exact counted (records_entry inner) .ofEntries
    · exact counted inner .struct
    · exact records_bind (lift _) fun _ => records_bind (lift _) fun _ =>
        records_bind (lift _) fun _ => records_pure _
    · exact records_bind (lift _) fun _ => records_pure _
    · exact counted records_segment fun ss => .text (.ofSegments ss)
    · exact lift _

end Recording

end EventScript
