import EventScript.Document
import EventScript.Proofs.Heap.Containment
import Mathlib.Data.List.Basic

/-!
Writing values out of the heap. A walk looks into each container when it comes to it, no deeper than
what is written may lie. It answers what writing the datum answers, and the heap stays as it is.
-/
namespace EventScript

open Wire

/-- A walk over the heap, which fails or answers, and could leave the heap changed. -/
abbrev Walk := ExceptT CodecError (StateM Heap)

/-- Writes a value inside containers that leave room for `levels - 1` levels more. -/
def Heap.writeTo : (levels : Nat) → Value → Walk (List UInt8)
  | 0, _ => throw .tooDeep
  | _ + 1, .number n => return varint numberTag ++ Wire.number n
  | _ + 1, .string s => return varint stringTag ++ (← liftExcept (Wire.string s))
  | levels + 1, .list r => do
    let items := ((← get).items r).toList
    let count ← liftExcept (length items.length)
    let contents ← items.mapM (writeTo levels)
    return varint listTag ++ count ++ contents.flatten
  | levels + 1, .dict r => do
    let entries := ((← get).entries r).toList
    let count ← liftExcept (length entries.length)
    let contents ← entries.mapM fun (k, v) => return (← writeTo levels k) ++ (← writeTo levels v)
    return varint dictTag ++ count ++ contents.flatten
  | levels + 1, .struct r => do
    let fields := ((← get).fields r).toList
    let count ← liftExcept (length fields.length)
    let contents ← fields.mapM (writeTo levels)
    return varint structTag ++ count ++ contents.flatten
  | _ + 1, .vector v =>
    return varint vectorTag ++ Wire.number v.x ++ Wire.number v.y ++ Wire.number v.z
  | _ + 1, .uuid u => return varint uuidTag ++ word u.high ++ word u.low
  | _ + 1, .text t => do
    let count ← liftExcept (length t.segments.length)
    return varint textTag ++ count ++ (← liftExcept (Wire.segments t.segments))
  | _ + 1, .extension object => throw (.unencodable object.typeName)

/-- Writes a value. -/
def Heap.write (v : Value) : Walk (List UInt8) := writeTo (maxDepth + 1) v

namespace Walk

variable {α β γ : Type} {h : Heap} {walk : Walk α} {x : Except CodecError α}

/-- At the heap the walk answers so, and leaves the heap as it is. -/
def Answers (h : Heap) (walk : Walk α) (x : Except CodecError α) : Prop := walk.run.run h = (x, h)

theorem answers_pure (a : α) : Answers h (pure a) (.ok a) := rfl

theorem answers_throw (e : CodecError) : Answers h (throw e : Walk α) (.error e) := rfl

theorem answers_liftExcept (x : Except CodecError α) : Answers h (liftExcept x) x := by
  cases x <;> rfl

theorem answers_get_bind {f : Heap → Walk α} (hf : Answers h (f h) x) : Answers h (get >>= f) x :=
  hf

theorem answers_bind {f : α → Walk β} {g : α → Except CodecError β} (hw : Answers h walk x)
    (hf : ∀ a, Answers h (f a) (g a)) : Answers h (walk >>= f) (x >>= g) := by
  have hrun : (walk >>= f).run.run h =
      ((fun x => ExceptT.bindCont f x) (walk.run.run h).1 : StateM Heap _) (walk.run.run h).2 := rfl
  rw [Answers, hrun, hw]
  cases x with
  | error e => rfl
  | ok a => exact hf a

theorem answers_map (f : α → β) (hw : Answers h walk x) :
    Answers h (do return f (← walk)) (x.map f) := by
  have hbind : x.map f = do return f (← x) := by cases x <;> rfl
  rw [hbind]
  exact answers_bind hw fun _ => answers_pure _

theorem answers_mapM {f : β → Walk α} {g : β → Except CodecError α} {bs : List β}
    (hf : ∀ b ∈ bs, Answers h (f b) (g b)) : Answers h (bs.mapM f) (bs.mapM g) := by
  induction bs with
  | nil => exact answers_pure []
  | cons b bs ih =>
    have hf := List.forall_mem_cons.1 hf
    rw [List.mapM_cons, List.mapM_cons]
    exact answers_bind hf.1 fun _ => answers_bind (ih hf.2) fun _ => answers_pure _

/-- A tag, a length and the pieces of what is held, written as the data of what is held are. -/
theorem answers_counted {f : β → Walk (List UInt8)} {datum : β → γ}
    {encode : γ → Except CodecError (List UInt8)} {contents : Except CodecError (List UInt8)}
    (tag : List UInt8) (bs : List β) (hf : ∀ b, Answers h (f b) (encode (datum b)))
    (hcontents : contents = ((bs.map datum).mapM encode).map List.flatten) :
    Answers h (do
        let count ← liftExcept (length bs.length)
        let pieces ← bs.mapM f
        return tag ++ count ++ pieces.flatten)
      (do return tag ++ (← length (bs.map datum).length) ++ (← contents)) := by
  have hpieces (count : List UInt8) : (do return tag ++ count ++ (← contents)) =
      (do return tag ++ count ++ (← bs.mapM (encode ∘ datum)).flatten) := by
    rw [hcontents, List.mapM_map]
    cases bs.mapM (encode ∘ datum) <;> rfl
  rw [List.length_map]
  refine answers_bind (answers_liftExcept _) fun count => ?_
  rw [hpieces]
  exact answers_bind (answers_mapM fun b _ => hf b) fun _ => answers_pure _

end Walk

namespace Datum

variable {depth : Nat}

theorem encodeItems_eq (ds : List Datum) :
    encodeItems depth ds = (ds.mapM (encodeAt depth)).map List.flatten := by
  induction ds with
  | nil => rfl
  | cons d ds ih =>
    rw [encodeItems, List.mapM_cons, ih]
    cases d.encodeAt depth with
    | error e => rfl
    | ok first => cases ds.mapM (encodeAt depth) <;> rfl

/-- An entry's key, then its value. -/
def encodeEntry (depth : Nat) (e : Datum × Datum) : Except CodecError (List UInt8) :=
  return (← e.1.encodeAt depth) ++ (← e.2.encodeAt depth)

theorem encodeEntries_eq (es : List (Datum × Datum)) :
    encodeEntries depth es = (es.mapM (encodeEntry depth)).map List.flatten := by
  induction es with
  | nil => rfl
  | cons e es ih =>
    rw [encodeEntries, List.mapM_cons, ih, encodeEntry]
    cases e.1.encodeAt depth with
    | error e => rfl
    | ok key =>
      cases e.2.encodeAt depth with
      | error e => rfl
      | ok value => cases es.mapM (encodeEntry depth) <;> rfl

end Datum

namespace Heap

open Walk

variable {h : Heap} {v : Value} {levels depth : Nat}

theorem Acyclic.answers_writeTo (ha : h.Acyclic) (hlevels : levels + depth = maxDepth + 1) :
    Answers h (writeTo levels v) ((h.datum v).encodeAt depth) := by
  induction levels generalizing depth v with
  | zero =>
    have hdeep : depth > maxDepth := by omega
    rw [Datum.encodeAt.eq_def, if_pos hdeep]
    exact answers_throw _
  | succ levels ih =>
    have hdeep : ¬depth > maxDepth := by omega
    have inner (v : Value) : Answers h (writeTo levels v) ((h.datum v).encodeAt (depth + 1)) :=
      ih (by omega)
    rw [Datum.encodeAt.eq_def, if_neg hdeep]
    cases v with
    | list r =>
      rw [ha.datum_list]
      exact answers_get_bind (answers_counted _ _ inner (Datum.encodeItems_eq _))
    | dict r =>
      have entry (e : Value × Value) : Answers h
          (do return (← writeTo levels e.1) ++ (← writeTo levels e.2))
          (Datum.encodeEntry (depth + 1) (h.datum e.1, h.datum e.2)) :=
        answers_bind (inner e.1) fun _ => answers_bind (inner e.2) fun _ => answers_pure _
      rw [ha.datum_dict]
      exact answers_get_bind (answers_counted _ _ entry (Datum.encodeEntries_eq _))
    | struct r =>
      rw [ha.datum_struct]
      exact answers_get_bind (answers_counted _ _ inner (Datum.encodeItems_eq _))
    | string s => exact answers_map _ (answers_liftExcept _)
    | text t =>
      exact answers_bind (answers_liftExcept _) fun _ =>
        answers_bind (answers_liftExcept _) fun _ => answers_pure _
    | number n => exact answers_pure _
    | vector v => exact answers_pure _
    | uuid u => exact answers_pure _
    | extension object => exact answers_throw _

end Heap

end EventScript
