import EventScript.Proofs.Codec.Documents
import EventScript.Proofs.Heap.Sameness
import EventScript.Proofs.Heap.Storing
import Mathlib

/-!
Equal documents. They are written both or not at all, with the same bytes in some order; the bytes
are the same just if the dicts in them list their entries in the same order.
-/
namespace EventScript

namespace Wire

variable {α β : Type} {writes : α → List UInt8 → Prop} {writes' : β → List UInt8 → Prop}
  {as : List α} {bs : List β} {bytes : List UInt8}

theorem Sequence.perm (h : Sequence writes as bytes) {as' : List α} (hperm : as.Perm as') :
    ∃ bytes', Sequence writes as' bytes' ∧ bytes.Perm bytes' := by
  obtain ⟨pieces, hpieces, rfl⟩ := h
  obtain ⟨pieces', hpieces', hperm'⟩ := List.perm_comp_forall₂ hperm.symm hpieces
  exact ⟨_, ⟨pieces', hpieces', rfl⟩, hperm'.symm.flatten⟩

/-- Items whose pieces are permuted one by one. -/
theorem Sequence.permPieces {R : α → β → Prop} (h : Sequence writes as bytes)
    (hR : List.Forall₂ R as bs) (hpiece : ∀ a ∈ as, ∀ b, R a b → ∀ piece, writes a piece →
      ∃ piece', writes' b piece' ∧ piece.Perm piece') :
    ∃ bytes', Sequence writes' bs bytes' ∧ bytes.Perm bytes' := by
  induction hR generalizing bytes with
  | nil => exact ⟨[], sequence_nil_iff.2 rfl, by rw [sequence_nil_iff.1 h]⟩
  | cons hab _ ih =>
    obtain ⟨first, rest, hfirst, hrest, rfl⟩ := sequence_cons_iff.1 h
    have hpiece := List.forall_mem_cons.1 hpiece
    obtain ⟨first', hfirst', hperm⟩ := hpiece.1 _ hab _ hfirst
    obtain ⟨rest', hrest', hperm'⟩ := ih hrest hpiece.2
    exact ⟨_, sequence_cons_iff.2 ⟨first', rest', hfirst', hrest', rfl⟩, hperm.append hperm'⟩

end Wire

open Wire

namespace Datum

/-- Data that are alike are both written, with the same bytes in some order. -/
theorem Alike.encodeAt {d e : Datum} (hde : d.Alike e) {depth : Nat} {bytes : List UInt8}
    (h : d.encodeAt depth = .ok bytes) :
    ∃ bytes', e.encodeAt depth = .ok bytes' ∧ bytes.Perm bytes' := by
  induction d generalizing e depth bytes with
  | list items ih =>
    cases hde with
    | list hitems =>
      obtain ⟨hdepth, hlength, contents, hcontents, rfl⟩ := encodeAt_list_eq_ok.1 h
      obtain ⟨contents', hcontents', hperm⟩ := (encodeItems_eq_ok.1 hcontents).permPieces hitems
        fun d hd _ halike _ hpiece => ih d hd halike hpiece
      rw [hitems.length_eq] at hlength ⊢
      exact ⟨_, encodeAt_list_eq_ok.2
        ⟨hdepth, hlength, contents', encodeItems_eq_ok.2 hcontents', rfl⟩,
        (hperm.append_left _).append_left _⟩
  | struct fields ih =>
    cases hde with
    | struct hfields =>
      obtain ⟨hdepth, hlength, contents, hcontents, rfl⟩ := encodeAt_struct_eq_ok.1 h
      obtain ⟨contents', hcontents', hperm⟩ := (encodeItems_eq_ok.1 hcontents).permPieces hfields
        fun d hd _ halike _ hpiece => ih d hd halike hpiece
      rw [hfields.length_eq] at hlength ⊢
      exact ⟨_, encodeAt_struct_eq_ok.2
        ⟨hdepth, hlength, contents', encodeItems_eq_ok.2 hcontents', rfl⟩,
        (hperm.append_left _).append_left _⟩
  | dict es ih =>
    cases e with
    | dict fs =>
      obtain ⟨gs, hes, hfs⟩ := alike_dict_iff.1 hde
      obtain ⟨hdepth, hlength, contents, hcontents, rfl⟩ := encodeAt_dict_eq_ok.1 h
      have hentry : ∀ e ∈ es, ∀ g, e.1.Alike g.1 ∧ e.2.Alike g.2 → ∀ piece,
          WritesEntry (depth + 1) e piece →
          ∃ piece', WritesEntry (depth + 1) g piece' ∧ piece.Perm piece' := by
        rintro e he g ⟨hk, hv⟩ _ ⟨key, value, hkey, hvalue, rfl⟩
        obtain ⟨key', hkey', hperm⟩ := (ih e he).1 hk hkey
        obtain ⟨value', hvalue', hperm'⟩ := (ih e he).2 hv hvalue
        exact ⟨_, ⟨key', value', hkey', hvalue', rfl⟩, hperm.append hperm'⟩
      -- First entry by entry, then in the order of the other dict.
      obtain ⟨between, hbetween, hperm⟩ := (encodeEntries_eq_ok.1 hcontents).permPieces hes hentry
      obtain ⟨contents', hcontents', hperm'⟩ := hbetween.perm hfs
      rw [hes.length_eq.trans hfs.length_eq] at hlength ⊢
      exact ⟨_, encodeAt_dict_eq_ok.2
        ⟨hdepth, hlength, contents', encodeEntries_eq_ok.2 hcontents', rfl⟩,
        ((hperm.trans hperm').append_left _).append_left _⟩
    | _ => cases hde
  | _ =>
    cases hde
    exact ⟨bytes, h, .refl _⟩

end Datum

namespace Document

/-- The document of values under names. -/
def ofValues (h : Heap) (values : SortedMap String Value) : Document := values.mapValues h.datum

variable {doc doc' : Document} {bytes : List UInt8}

/-- Documents whose data are alike under the same names. -/
def Alike (doc doc' : Document) : Prop :=
  List.Forall₂ (fun e f => e.1 = f.1 ∧ e.2.Alike f.2) doc.entries doc'.entries

theorem Alike.symm (h : doc.Alike doc') : doc'.Alike doc :=
  (h.imp fun _ _ h => ⟨h.1.symm, h.2.symm⟩).flip

theorem Alike.encode (hdoc : doc.Alike doc') (h : doc.encode = .ok bytes) :
    ∃ bytes', doc'.encode = .ok bytes' ∧ bytes.Perm bytes' := by
  obtain ⟨hsize, contents, hcontents, rfl⟩ := encode_eq_ok.1 h
  have hentry : ∀ e ∈ doc.entries, ∀ f, e.1 = f.1 ∧ e.2.Alike f.2 → ∀ piece, WritesNamed e piece →
      ∃ piece', WritesNamed f piece' ∧ piece.Perm piece' := by
    rintro e _ f ⟨hname, halike⟩ _ ⟨value, hlimit, hvalue, rfl⟩
    obtain ⟨value', hvalue', hperm⟩ := halike.encodeAt hvalue
    rw [hname] at hlimit ⊢
    exact ⟨_, ⟨value', hlimit, hvalue', rfl⟩, hperm.append_left _⟩
  obtain ⟨contents', hcontents', hperm⟩ := hcontents.permPieces hdoc hentry
  have hcount : doc.size = doc'.size := hdoc.length_eq
  rw [hcount] at hsize ⊢
  exact ⟨_, encode_eq_ok.2 ⟨hsize, contents', hcontents', rfl⟩, hperm.append_left _⟩

theorem decode_of_encode_self (h : doc.encode = .ok bytes)
    (hkeys : ∀ e ∈ doc.entries, e.2.Everywhere Datum.HasDistinctKeys)
    (htexts : ∀ e ∈ doc.entries,
      e.2.Everywhere (Datum.TextHas fun t => t.Canonical ∧ t.SparesLastColor)) :
    decode bytes = .ok doc := by
  have hplain := isPlain_of_encode h
  rw [decode_of_encode h, reread_eq_self fun e he =>
    Datum.everywhere_faithful (hplain e he) (hkeys e he) (htexts e he)]

/-- Equal documents are written both or not at all, with the same bytes in some order. The bytes are
the same just if the dicts of both list their entries in the same order. -/
theorem encode_ofValues {h : Heap} (hh : h.Acyclic) {a b : SortedMap String Value}
    (hsame : ∀ name, Option.Rel (fun v w => h.same v w = true) (a.find? name) (b.find? name))
    (ha : ∀ e ∈ a.entries, h.KeysDifferWithin e.2) (hb : ∀ e ∈ b.entries, h.KeysDifferWithin e.2) :
    ((∃ xs, (ofValues h a).encode = .ok xs) ↔ ∃ ys, (ofValues h b).encode = .ok ys) ∧
    ∀ xs ys, (ofValues h a).encode = .ok xs → (ofValues h b).encode = .ok ys → xs.Perm ys ∧
      ((∀ e ∈ a.entries, ∀ t, h.Within e.2 (.text t) → t.Built ∧ t.SparesLastColor) →
        (xs = ys ↔ ofValues h a = ofValues h b)) := by
  have halike : (ofValues h a).Alike (ofValues h b) := by
    rw [Alike, ofValues, ofValues, SortedMap.mapValues, SortedMap.mapValues,
      List.forall₂_map_left_iff, List.forall₂_map_right_iff]
    refine forall₂_imp_of_mem (SortedMap.forall₂_entries hsame) fun e he f hf hef => ?_
    exact ⟨hef.1, (hh.same_iff (hh.hasDistinctKeys_iff.2 (ha e he))
      (hh.hasDistinctKeys_iff.2 (hb f hf))).1 hef.2⟩
  have hkeys {values : SortedMap String Value}
      (hv : ∀ e ∈ values.entries, h.KeysDifferWithin e.2) :
      ∀ e ∈ (ofValues h values).entries, e.2.Everywhere Datum.HasDistinctKeys :=
    List.forall_mem_map.2 fun e he => hh.hasDistinctKeys_iff.2 (hv e he)
  refine ⟨⟨fun ⟨_, hxs⟩ => ?_, fun ⟨_, hys⟩ => ?_⟩, fun xs ys hxs hys => ⟨?_, fun htexts => ?_⟩⟩
  · obtain ⟨ys, hys, _⟩ := halike.encode hxs
    exact ⟨ys, hys⟩
  · obtain ⟨xs, hxs, _⟩ := halike.symm.encode hys
    exact ⟨xs, hxs⟩
  · obtain ⟨_, hys', hperm⟩ := halike.encode hxs
    cases hys.symm.trans hys'
    exact hperm
  · constructor
    · rintro rfl
      -- What is read of the bytes can only be one of the documents.
      have htexts' : ∀ e ∈ (ofValues h a).entries,
          e.2.Everywhere (Datum.TextHas fun t => t.Canonical ∧ t.SparesLastColor) :=
        List.forall_mem_map.2 fun e he => hh.textHas_iff.2 fun t ht =>
          ⟨(htexts e he t ht).1.canonical, (htexts e he t ht).2⟩
      have hreads := decode_of_encode_self hxs (hkeys ha) htexts'
      have hreads' := decode_of_encode_self hys (hkeys hb) fun f hf => by
        obtain ⟨e, he, hef⟩ := exists_left_of_forall₂ halike hf
        exact hef.2.symm.textHas (htexts' e he)
      exact Except.ok.inj (hreads.symm.trans hreads')
    · intro heq
      rw [heq] at hxs
      exact Except.ok.inj (hxs.symm.trans hys)

/-- Two dicts with the same entries, stored in opposite orders. -/
def opposite : Heap :=
  ((Heap.empty.alloc (.dict #[(.string "x", .string "1"), (.string "y", .string "2")])).2.alloc
    (.dict #[(.string "y", .string "2"), (.string "x", .string "1")])).2

theorem wellFormed_opposite : opposite.WellFormed := by
  refine (Heap.wellFormed_empty.alloc ?_).alloc ?_
  · simp [Cell.children, Heap.InRange, Value.ref?]
  · simp [Cell.children, Heap.InRange, Value.ref?]

/-- One value under a name. -/
def ofValue (v : Value) : SortedMap String Value := ⟨[("k", v)], by simp⟩

theorem hasDistinctKeys_pair {k l : String} (hne : k ≠ l) (s t : String) :
    (Datum.dict [(.string k, .string s), (.string l, .string t)]).Everywhere
      Datum.HasDistinctKeys := by
  have hstring (s : String) : (Datum.string s).Everywhere Datum.HasDistinctKeys :=
    Datum.everywhere_of_children_nil trivial rfl
  refine Datum.everywhere_dict.2 ⟨?_, by simp [hstring]⟩
  simpa [Datum.HasDistinctKeys, KeysDiffer, Datum.alike_string_iff] using hne

theorem encode_ofValues_opposite : opposite.Acyclic ∧
    opposite.same (.dict 0) (.dict 1) = true ∧ ∃ xs ys,
      (ofValues opposite (ofValue (.dict 0))).encode = .ok xs ∧
      (ofValues opposite (ofValue (.dict 1))).encode = .ok ys ∧ xs.Perm ys ∧ xs ≠ ys := by
  have ha := wellFormed_opposite.acyclic
  have hsame : opposite.same (.dict 0) (.dict 1) = true := by cbv
  have hequal (name : String) : Option.Rel (fun v w => opposite.same v w = true)
      ((ofValue (.dict 0)).find? name) ((ofValue (.dict 1)).find? name) := by
    by_cases hname : "k" = name
    · have : Option.Rel (fun v w => opposite.same v w = true) (some (.dict 0)) (some (.dict 1)) :=
        .some hsame
      simpa [ofValue, SortedMap.find?, hname] using this
    · simp [ofValue, SortedMap.find?, hname]
  have hkeys : ∀ e ∈ (ofValue (.dict 0)).entries, opposite.KeysDifferWithin e.2 := fun e he => by
    cases List.mem_singleton.1 he
    exact ha.hasDistinctKeys_iff.1 (hasDistinctKeys_pair (by decide) "1" "2")
  have hkeys' : ∀ e ∈ (ofValue (.dict 1)).entries, opposite.KeysDifferWithin e.2 := fun e he => by
    cases List.mem_singleton.1 he
    exact ha.hasDistinctKeys_iff.1 (hasDistinctKeys_pair (by decide) "2" "1")
  have hxs : (ofValues opposite (ofValue (.dict 0))).encode = .ok
      [1, 1, 107, 4, 2, 2, 1, 120, 2, 1, 49, 2, 1, 121, 2, 1, 50] := by
    cbv
  have hys : (ofValues opposite (ofValue (.dict 1))).encode = .ok
      [1, 1, 107, 4, 2, 2, 1, 121, 2, 1, 50, 2, 1, 120, 2, 1, 49] := by
    cbv
  have hperm := ((encode_ofValues ha hequal hkeys hkeys').2 _ _ hxs hys).1
  exact ⟨ha, hsame, _, _, hxs, hys, hperm, by decide⟩

end Document

end EventScript
