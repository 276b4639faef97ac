import EventScript.Datum
import Std.Data.HashSet

/-!
The heap of containers. Containers stay tree-shaped: a store that would let a container reach itself
is refused, so equality and text of every value are finite.
-/
namespace EventScript

inductive Cell where
  | list (items : Array Value)
  | dict (entries : Array (Value × Value))
  | struct (fields : Array Value)
deriving Inhabited

/-- The values a container holds, a key before its value. -/
def Cell.children : Cell → List Value
  | list items => items.toList
  | dict entries => entries.toList.flatMap fun (k, v) => [k, v]
  | struct fields => fields.toList

/-- Cells of another kind stay as they are. -/
def Cell.push (v : Value) : Cell → Cell
  | .list items => .list (items.push v)
  | cell => cell

def Cell.setEntries (entries : Array (Value × Value)) : Cell → Cell
  | .dict _ => .dict entries
  | cell => cell

def Cell.setField (i : Nat) (v : Value) : Cell → Cell
  | .struct fields => .struct (fields.setIfInBounds i v)
  | cell => cell

structure Heap where
  cells : Array Cell := #[]
  /-- How many identities have been given to objects of the host. -/
  objects : Nat := 0
deriving Inhabited

/-- Why a container refuses an access. -/
inductive ContainerError where
  | cycle (kind : ValueKind)
  | index (index arity : Nat)
  | arity (requested : Nat)
deriving DecidableEq

/-- The word for the reason alone. -/
def ContainerError.label : ContainerError → String
  | .cycle _ => "CycleError"
  | .index _ _ => "IndexError"
  | .arity _ => "ArityError"

def ContainerError.message : ContainerError → String
  | .cycle kind => s!"a {kind.name} cannot contain itself"
  | .index i size => s!"index {i} is out of range for struct of arity {size}"
  | .arity requested => s!"struct arity {requested} exceeds the maximum of 65535"

namespace Heap

def empty : Heap := {}

def items (h : Heap) (r : Ref) : Array Value :=
  match h.cells[r]? with
  | some (.list items) => items
  | _ => #[]

def entries (h : Heap) (r : Ref) : Array (Value × Value) :=
  match h.cells[r]? with
  | some (.dict entries) => entries
  | _ => #[]

def fields (h : Heap) (r : Ref) : Array Value :=
  match h.cells[r]? with
  | some (.struct fields) => fields
  | _ => #[]

def children (h : Heap) (r : Ref) : List Value :=
  match h.cells[r]? with
  | some cell => cell.children
  | none => []

/-- The containers of a heap that a walk has not seen. -/
def unseen (h : Heap) (seen : Std.HashSet Ref) : List Ref :=
  (List.range h.cells.size).filter fun r => !seen.contains r

theorem length_unseen_insert_lt {h : Heap} {seen : Std.HashSet Ref} {r : Ref}
    (hr : r < h.cells.size) (new : ¬seen.contains r) :
    (h.unseen (seen.insert r)).length < (h.unseen seen).length := by
  have hinsert : h.unseen (seen.insert r) = (h.unseen seen).filter (· != r) := by
    rw [unseen, unseen, List.filter_filter]
    congr 1
    funext s
    rw [Std.HashSet.contains_insert]
    grind
  rw [hinsert, List.length_filter_lt_length_iff_exists]
  exact ⟨r, by simp_all [unseen], by simp⟩

/-- Walks what the pending values reach, each container once, in search of `target`. -/
def reachesFrom (h : Heap) (target : Ref) (seen : Std.HashSet Ref) (pending : List Value) : Bool :=
  match pending with
  | [] => false
  | v :: pending =>
    match v.ref? with
    | none => reachesFrom h target seen pending
    | some r =>
      if r = target then true
      else if _new : r < h.cells.size ∧ ¬seen.contains r then
        reachesFrom h target (seen.insert r) (h.children r ++ pending)
      else reachesFrom h target seen pending
termination_by ((h.unseen seen).length, pending.length)
decreasing_by
  · exact Prod.Lex.right _ (by simp)
  · exact Prod.Lex.left _ _ (length_unseen_insert_lt _new.1 _new.2)
  · exact Prod.Lex.right _ (by simp)

/-- Whether the container `target` is the value itself or somewhere inside it. -/
def reaches (h : Heap) (v : Value) (target : Ref) : Bool := h.reachesFrom target ∅ [v]

/-- A new container, and its handle's place. -/
def alloc (h : Heap) (cell : Cell) : Ref × Heap :=
  (h.cells.size, { h with cells := h.cells.push cell })

def modify (h : Heap) (r : Ref) (change : Cell → Cell) : Heap :=
  { h with cells := h.cells.modify r change }

/-- The entry with an equal key gets the value, the last entry if there is none, as `eq` says. -/
def putEntry (eq : Value → Value → Bool) (entries : Array (Value × Value)) (key value : Value) :
    Array (Value × Value) :=
  match entries.findIdx? fun e => eq e.1 key with
  | some i => entries.modify i fun e => (e.1, value)
  | none => entries.push (key, value)

def putEntries (eq : Value → Value → Bool) (entries : Array (Value × Value)) :
    Array (Value × Value) :=
  entries.foldl (fun es (k, v) => putEntry eq es k v) #[]

/-- Equality of dicts: as many entries, and to each an equal one. Entries whose keys have become
equal since they were stored count once. -/
def sameEntries (eq : Value → Value → Bool) (es fs : Array (Value × Value)) : Bool :=
  let es := putEntries eq es
  let fs := putEntries eq fs
  es.size = fs.size && es.all fun (k, v) =>
    match fs.find? fun f => eq f.1 k with
    | some f => eq v f.2
    | none => false

/-- Equality of contents down to a depth. -/
def sameTo (h : Heap) : (depth : Nat) → Value → Value → Bool
  | 0, v, w => v = w
  | depth + 1, v, w =>
    v = w || match v, w with
      | .list r, .list s => (h.items r).isEqv (h.items s) (sameTo h depth)
      | .dict r, .dict s => sameEntries (sameTo h depth) (h.entries r) (h.entries s)
      | .struct r, .struct s => (h.fields r).isEqv (h.fields s) (sameTo h depth)
      | _, _ => false

/-- No chain of containers is longer than this. -/
def depth (h : Heap) : Nat := h.cells.size + 1

/-- Equality of contents, the same handle being equal to itself without a look inside. -/
def same (h : Heap) (v w : Value) : Bool := h.sameTo h.depth v w

/-- A value written out down to a depth. -/
def datumTo (h : Heap) : (depth : Nat) → Value → Datum
  | _, .number n => .number n
  | _, .string s => .string s
  | _, .vector v => .vector v
  | _, .uuid u => .uuid u
  | _, .text t => .text t
  | _, .extension object => .extension object
  | 0, .list _ => .list []
  | 0, .dict _ => .dict []
  | 0, .struct _ => .struct []
  | depth + 1, .list r => .list ((h.items r).toList.map (datumTo h depth))
  | depth + 1, .dict r =>
    .dict ((h.entries r).toList.map fun (k, v) => (datumTo h depth k, datumTo h depth v))
  | depth + 1, .struct r => .struct ((h.fields r).toList.map (datumTo h depth))

def datum (h : Heap) (v : Value) : Datum := h.datumTo h.depth v

def display (h : Heap) (v : Value) : String := (h.datum v).display

/-! ### Lists -/

def newList (h : Heap) (items : Array Value) : Value × Heap :=
  let (r, h) := h.alloc (.list items)
  (.list r, h)

def push (h : Heap) (r : Ref) (v : Value) : Except ContainerError Unit × Heap :=
  if h.reaches v r then (.error (.cycle .list), h)
  else (.ok (), h.modify r (.push v))

/-! ### Dicts -/

/-- The dict with these entries, stored one after the other. -/
def newDict (h : Heap) (entries : Array (Value × Value)) : Value × Heap :=
  let (r, h) := h.alloc (.dict (putEntries h.same entries))
  (.dict r, h)

/-- The value of the entry whose key equals `key`. A key that reaches the dict is not looked for:
no stored key can equal it. -/
def get? (h : Heap) (r : Ref) (key : Value) : Option Value :=
  if h.reaches key r then none
  else ((h.entries r).find? fun e => h.same e.1 key).map (·.2)

def has (h : Heap) (r : Ref) (key : Value) : Bool := (h.get? r key).isSome

/-- Stores an entry and answers the value it replaces. -/
def insert (h : Heap) (r : Ref) (key value : Value) :
    Except ContainerError (Option Value) × Heap :=
  if h.reaches key r || h.reaches value r then (.error (.cycle .dict), h)
  else
    let entries := h.entries r
    let previous := (entries.find? fun e => h.same e.1 key).map (·.2)
    let entries := putEntry h.same entries key value
    (.ok previous, h.modify r (.setEntries entries))

/-! ### Structs -/

def newStruct (h : Heap) (fields : Array Value) : Value × Heap :=
  let (r, h) := h.alloc (.struct fields)
  (.struct r, h)

def maxArity : Nat := 65535

/-- A struct of `arity` equal fields. -/
def newFilled (h : Heap) (arity : Nat) (fill : Value) : Except ContainerError Value × Heap :=
  if arity > maxArity then (.error (.arity arity), h)
  else
    let (v, h) := h.newStruct (Array.replicate arity fill)
    (.ok v, h)

def field (h : Heap) (r : Ref) (i : Nat) : Except ContainerError Value :=
  match (h.fields r)[i]? with
  | some v => .ok v
  | none => .error (.index i (h.fields r).size)

/-- Replaces a field. A cycle is refused before an index out of range. -/
def setField (h : Heap) (r : Ref) (i : Nat) (v : Value) : Except ContainerError Unit × Heap :=
  if h.reaches v r then (.error (.cycle .struct), h)
  else if i < (h.fields r).size then (.ok (), h.modify r (.setField i v))
  else (.error (.index i (h.fields r).size), h)

/-! ### Objects of the host and data -/

/-- A new object, different from all others. -/
def newObject (h : Heap) (typeName description : String) : Value × Heap :=
  (.extension ⟨h.objects, typeName, description⟩, { h with objects := h.objects + 1 })

mutual

/-- Stores a datum in new containers, contents first. -/
def store (h : Heap) : Datum → Value × Heap
  | .number n => (.number n, h)
  | .string s => (.string s, h)
  | .vector v => (.vector v, h)
  | .uuid u => (.uuid u, h)
  | .text t => (.text t, h)
  | .extension object => (.extension object, h)
  | .list items =>
    let (vs, h) := storeItems h items
    h.newList vs.toArray
  | .dict entries =>
    let (es, h) := storeEntries h entries
    let (r, h) := h.alloc (.dict es.toArray)
    (.dict r, h)
  | .struct fields =>
    let (vs, h) := storeItems h fields
    h.newStruct vs.toArray

def storeItems (h : Heap) : List Datum → List Value × Heap
  | [] => ([], h)
  | d :: ds =>
    let (v, h) := store h d
    let (vs, h) := storeItems h ds
    (v :: vs, h)

def storeEntries (h : Heap) : List (Datum × Datum) → List (Value × Value) × Heap
  | [] => ([], h)
  | (k, v) :: es =>
    let (k, h) := store h k
    let (v, h) := store h v
    let (es, h) := storeEntries h es
    ((k, v) :: es, h)

end

end Heap

end EventScript
