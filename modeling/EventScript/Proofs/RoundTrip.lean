import EventScript.Proofs.Codec.Faithful
import EventScript.Proofs.Heap.Sameness
import EventScript.Proofs.Heap.Storing
import Mathlib

/-!
The round trip. A value that is written, read and stored again is the same value with everything in
its place, unless a text in it has the last color there is: that one comes back as the one before.
-/
namespace EventScript.Heap

variable {h : Heap} {v : Value}

/-- What is written of a value is read back. Stored again it is the same value just if no text has
the last color, and then entries stand in the same order and texts are unchanged. -/
theorem decode_encode (hh : h.WellFormed) (hv : h.InRange v) (hkeys : h.KeysDifferWithin v)
    (htexts : ∀ t, h.Within v (.text t) → t.Built) {bytes : List UInt8}
    (hbytes : (h.datum v).encode = .ok bytes) :
    ∃ d, Datum.decode bytes = .ok d ∧
      ((h.store d).2.same v (h.store d).1 = true ↔
        ∀ t, h.Within v (.text t) → t.SparesLastColor) ∧
      ((∀ t, h.Within v (.text t) → t.SparesLastColor) →
        (h.store d).2.datum (h.store d).1 = h.datum v) := by
  have ha := hh.acyclic
  have hplain := Datum.isPlain_of_encodeAt hbytes
  have hreread := Datum.faithful_reread hplain
  have hunchanged (hcolors : ∀ t, h.Within v (.text t) → t.SparesLastColor) :
      (h.datum v).reread = h.datum v :=
    Datum.reread_eq_self <| Datum.everywhere_faithful hplain (ha.hasDistinctKeys_iff.2 hkeys) <|
      ha.textHas_iff.2 fun t ht => ⟨(htexts t ht).canonical, hcolors t ht⟩
  refine ⟨_, (Datum.delimits_of_encode hbytes).runAll, ?_, ?_⟩
  · have hstored := hh.store (h.datum v).reread
    have hold := hstored.grown.datum_eq hh hv
    have hsame := hstored.wellFormed.acyclic.same_iff (v := v)
      (w := (h.store (h.datum v).reread).1)
    rw [hold, hstored.datum] at hsame
    rw [hsame (ha.hasDistinctKeys_iff.2 hkeys) (hreread.imp fun _ h => h.hasDistinctKeys),
      ← ha.textHas_iff]
    constructor
    · exact fun halike => halike.textHas (hreread.imp fun _ h => h.sparesLastColor)
    · intro hcolors
      rw [hunchanged (ha.textHas_iff.1 hcolors)]
      exact .refl _
  · intro hcolors
    rw [(hh.store _).datum, hunchanged hcolors]

/-- A list that a dict holds twice. -/
def shared : Heap :=
  let (list, h) := Heap.empty.newList #[.text (.plain "a")]
  (h.alloc (.dict #[(.string "k", list), (.string "l", list)])).2

theorem wellFormed_shared : shared.WellFormed := by
  refine (wellFormed_empty.alloc ?_).alloc ?_
  · simp [Cell.children, InRange, Value.ref?]
  · simp [Cell.children, InRange, Value.ref?, empty, Heap.alloc]

theorem datum_shared : shared.datum (.dict 1) =
    .dict [(.string "k", .list [.text (.plain "a")]), (.string "l", .list [.text (.plain "a")])] :=
  rfl

theorem everywhere_shared {P : Datum → Prop} (dict : P (shared.datum (.dict 1)))
    (keys : ∀ key, P (.string key)) (list : P (.list [.text (.plain "a")]))
    (text : P (.text (.plain "a"))) : (shared.datum (.dict 1)).Everywhere P := by
  have hlist : (Datum.list [.text (.plain "a")]).Everywhere P := Datum.everywhere_list.2
    ⟨list, by simpa using Datum.everywhere_of_children_nil text rfl⟩
  have hkey (key : String) : (Datum.string key).Everywhere P :=
    Datum.everywhere_of_children_nil (keys key) rfl
  rw [datum_shared] at dict ⊢
  exact Datum.everywhere_dict.2 ⟨dict, by simp [hlist, hkey]⟩

theorem decode_encode_shared : shared.WellFormed ∧ shared.InRange (.dict 1) ∧
    shared.KeysDifferWithin (.dict 1) ∧ (∀ t, shared.Within (.dict 1) (.text t) → t.Built) ∧
    ∃ bytes d, (shared.datum (.dict 1)).encode = .ok bytes ∧ Datum.decode bytes = .ok d ∧
      (shared.store d).2.same (.dict 1) (shared.store d).1 = true := by
  have ha := wellFormed_shared.acyclic
  have hv : shared.InRange (.dict 1) := by
    rintro r ⟨⟩
    decide
  have hkeys : shared.KeysDifferWithin (.dict 1) := by
    refine ha.hasDistinctKeys_iff.1 (everywhere_shared ?_ (fun _ => trivial) trivial trivial)
    simp [datum_shared, Datum.HasDistinctKeys, KeysDiffer, Datum.alike_string_iff]
  have htexts : ∀ t, shared.Within (.dict 1) (.text t) → t.Built :=
    ha.textHas_iff.1 (everywhere_shared trivial (fun _ => trivial) trivial (.plain "a"))
  have hcolors : ∀ t, shared.Within (.dict 1) (.text t) → t.SparesLastColor := by
    refine ha.textHas_iff.1 (everywhere_shared trivial (fun _ => trivial) trivial ?_)
    intro s hs
    cases List.mem_singleton.1 hs
    simp
  have hbytes : (shared.datum (.dict 1)).encode = .ok
      [4, 2, 2, 1, 107, 3, 1, 8, 1, 0, 1, 97, 2, 1, 108, 3, 1, 8, 1, 0, 1, 97] := by
    rw [datum_shared]
    cbv
  obtain ⟨d, hd, hsame, _⟩ := decode_encode wellFormed_shared hv hkeys htexts hbytes
  exact ⟨wellFormed_shared, hv, hkeys, htexts, _, d, hbytes, hd, hsame.2 hcolors⟩

end EventScript.Heap
