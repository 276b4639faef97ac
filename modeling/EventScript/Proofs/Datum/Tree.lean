import EventScript.Datum
import Mathlib.Logic.Relation

/-!
Data as trees: induction over them, and what lies inside a datum.
-/
namespace EventScript.Datum

/-- Induction over the tree of a datum. -/
@[elab_as_elim, induction_eliminator]
theorem induction {motive : Datum → Prop} (number : ∀ n, motive (.number n))
    (string : ∀ s, motive (.string s))
    (list : ∀ items, (∀ d ∈ items, motive d) → motive (.list items))
    (dict : ∀ entries, (∀ e ∈ entries, motive e.1 ∧ motive e.2) → motive (.dict entries))
    (struct : ∀ fields, (∀ d ∈ fields, motive d) → motive (.struct fields))
    (vector : ∀ v, motive (.vector v)) (uuid : ∀ u, motive (.uuid u))
    (text : ∀ t, motive (.text t)) (extension : ∀ object, motive (.extension object))
    (d : Datum) : motive d := by
  refine Datum.rec (motive_1 := motive) (motive_2 := fun ds => ∀ d ∈ ds, motive d)
    (motive_3 := fun es => ∀ e ∈ es, motive e.1 ∧ motive e.2)
    (motive_4 := fun e => motive e.1 ∧ motive e.2)
    number string list dict struct vector uuid text extension ?_ ?_ ?_ ?_ ?_ d
  · simp
  · exact fun d ds hd hds => List.forall_mem_cons.2 ⟨hd, hds⟩
  · simp
  · exact fun e es he hes => List.forall_mem_cons.2 ⟨he, hes⟩
  · exact fun k v hk hv => ⟨hk, hv⟩

/-- What a container holds, a key before its value. -/
def children : Datum → List Datum
  | list items => items
  | dict entries => entries.flatMap fun (k, v) => [k, v]
  | struct fields => fields
  | _ => []

theorem key_mem_children {entries : List (Datum × Datum)} {e : Datum × Datum} (he : e ∈ entries) :
    e.1 ∈ (dict entries).children :=
  List.mem_flatMap.2 ⟨e, he, by simp⟩

theorem value_mem_children {entries : List (Datum × Datum)} {e : Datum × Datum}
    (he : e ∈ entries) : e.2 ∈ (dict entries).children :=
  List.mem_flatMap.2 ⟨e, he, by simp⟩

theorem forall_mem_children_dict {P : Datum → Prop} {entries : List (Datum × Datum)} :
    (∀ c ∈ (dict entries).children, P c) ↔ ∀ e ∈ entries, P e.1 ∧ P e.2 := by
  constructor
  · exact fun h e he => ⟨h _ (key_mem_children he), h _ (value_mem_children he)⟩
  · intro h c hc
    obtain ⟨e, he, hce⟩ := List.mem_flatMap.1 hc
    have hce : c = e.1 ∨ c = e.2 := by simpa using hce
    rcases hce with rfl | rfl
    · exact (h e he).1
    · exact (h e he).2

theorem sizeOf_lt_of_mem_children {d c : Datum} (hc : c ∈ d.children) : sizeOf c < sizeOf d := by
  cases d with
  | list items =>
    have hlt : sizeOf c < sizeOf items := List.sizeOf_lt_of_mem hc
    rw [list.sizeOf_spec]
    omega
  | struct fields =>
    have hlt : sizeOf c < sizeOf fields := List.sizeOf_lt_of_mem hc
    rw [struct.sizeOf_spec]
    omega
  | dict entries =>
    have hlt : ∀ c ∈ (dict entries).children, sizeOf c < sizeOf (dict entries) :=
      forall_mem_children_dict.2 fun e he => by
        have hlt := List.sizeOf_lt_of_mem he
        rw [Prod.mk.sizeOf_spec] at hlt
        rw [dict.sizeOf_spec]
        omega
    exact hlt c hc
  | _ => cases hc

/-- Induction for proofs that treat all containers alike. -/
@[elab_as_elim]
theorem childInduction {motive : Datum → Prop}
    (step : ∀ d, (∀ e ∈ d.children, motive e) → motive d) (d : Datum) : motive d := by
  induction d with
  | list items ih => exact step _ ih
  | struct fields ih => exact step _ ih
  | dict entries ih => exact step _ (forall_mem_children_dict.2 ih)
  | _ => exact step _ nofun

/-- The property holds of the datum and of all that lies inside it. -/
def Everywhere (P : Datum → Prop) (d : Datum) : Prop :=
  ∀ e, Relation.ReflTransGen (fun d e => e ∈ d.children) d e → P e

variable {P Q : Datum → Prop} {d : Datum}

theorem Everywhere.self (h : d.Everywhere P) : P d := h d .refl

theorem Everywhere.child (h : d.Everywhere P) {e : Datum} (he : e ∈ d.children) : e.Everywhere P :=
  fun f hf => h f (.head he hf)

theorem everywhere_iff : d.Everywhere P ↔ P d ∧ ∀ e ∈ d.children, e.Everywhere P := by
  constructor
  · exact fun h => ⟨h.self, fun e he => h.child he⟩
  · rintro ⟨hd, hc⟩ e he
    rcases Relation.ReflTransGen.cases_head he with rfl | ⟨c, hcd, he⟩
    · exact hd
    · exact hc c hcd e he

theorem Everywhere.imp (h : d.Everywhere P) (hPQ : ∀ e, P e → Q e) : d.Everywhere Q :=
  fun e he => hPQ e (h e he)

theorem everywhere_of_children_nil (hd : P d) (h : d.children = []) : d.Everywhere P :=
  everywhere_iff.2 ⟨hd, by simp [h]⟩

theorem everywhere_list {items : List Datum} : (list items).Everywhere P ↔
    P (list items) ∧ ∀ d ∈ items, d.Everywhere P :=
  everywhere_iff

theorem everywhere_struct {fields : List Datum} : (struct fields).Everywhere P ↔
    P (struct fields) ∧ ∀ d ∈ fields, d.Everywhere P :=
  everywhere_iff

theorem everywhere_dict {entries : List (Datum × Datum)} : (dict entries).Everywhere P ↔
    P (dict entries) ∧ ∀ e ∈ entries, e.1.Everywhere P ∧ e.2.Everywhere P := by
  rw [everywhere_iff, forall_mem_children_dict]

/-- No object of the host. -/
def IsPlain : Datum → Prop
  | extension _ => False
  | _ => True

end EventScript.Datum
