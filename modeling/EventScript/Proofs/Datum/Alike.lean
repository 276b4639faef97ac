import EventScript.Proofs.Lists
import EventScript.Proofs.Datum.Tree
import Mathlib.Data.List.Pairwise
import Mathlib.Data.List.Perm.Subperm
import Mathlib.Data.List.Perm.Basic

/-!
Data that are alike: equal but for the order of dict entries. The relation is an equivalence, and
the equality that scripts see decides it where no dict holds a key twice.
-/
namespace EventScript

/-! ### Entries with different keys -/

section Entries

variable {κ : Type} {R S : κ → κ → Prop} {es fs : List (κ × κ)}

/-- No two entries have related keys. -/
def KeysDiffer (R : κ → κ → Prop) (es : List (κ × κ)) : Prop := es.Pairwise fun e f => ¬R e.1 f.1

theorem KeysDiffer.eq_of_mem (hR : Equivalence R) (h : KeysDiffer R es) {e f : κ × κ}
    (he : e ∈ es) (hf : f ∈ es) (hef : R e.1 f.1) : e = f := by
  have : Std.Symm fun e f : κ × κ => ¬R e.1 f.1 := ⟨fun _ _ hef hfe => hef (hR.symm hfe)⟩
  by_contra hne
  exact List.Pairwise.forall h he hf hne hef

/-- Dicts correspond entry by entry, in some order, if there are as many entries and each finds its
counterpart. -/
theorem exists_perm_iff (hR : Equivalence R) (hes : KeysDiffer R es) :
    (es.length = fs.length ∧ ∀ e ∈ es, ∃ f ∈ fs, R e.1 f.1 ∧ S e.2 f.2) ↔
      ∃ gs, List.Forall₂ (fun e g => R e.1 g.1 ∧ S e.2 g.2) es gs ∧ gs.Perm fs := by
  constructor
  · rintro ⟨hlength, hfind⟩
    obtain ⟨gs, hgs⟩ := exists_forall₂ hfind
    have hsub : gs ⊆ fs := fun g hg => (exists_left_of_forall₂ hgs hg).choose_spec.2.1
    -- Two entries with one counterpart would have related keys.
    have hnodup : gs.Nodup := by
      refine pairwise_of_forall₂ hgs hes ?_
      rintro e e' g _ ⟨_, he, _⟩ ⟨_, he', _⟩ hne rfl
      exact hne (hR.trans he (hR.symm he'))
    have hle : fs.length ≤ gs.length := Nat.le_of_eq (hlength.symm.trans hgs.length_eq)
    exact ⟨gs, hgs.imp fun _ _ h => h.2, (List.subperm_of_subset hnodup hsub).perm_of_length_le hle⟩
  · rintro ⟨gs, hgs, hperm⟩
    refine ⟨hgs.length_eq.trans hperm.length_eq, fun e he => ?_⟩
    obtain ⟨g, hg, heg⟩ := exists_right_of_forall₂ hgs he
    exact ⟨g, hperm.subset hg, heg⟩

/-- Looking for an entry by its key finds the only one there is. -/
theorem find?_any_iff (isKey isValue : κ → Bool) (hR : Equivalence R) (hes : KeysDiffer R es)
    {k : κ} (hkey : ∀ e ∈ es, (isKey e.1 = true ↔ R k e.1)) :
    ((es.find? fun e => isKey e.1).any fun e => isValue e.2) = true ↔
      ∃ e ∈ es, R k e.1 ∧ isValue e.2 = true := by
  cases hfind : es.find? fun e => isKey e.1 with
  | none =>
    simp only [Option.any_none, Bool.false_eq_true, false_iff]
    rintro ⟨e, he, hke, _⟩
    have := List.find?_eq_none.1 hfind e he
    exact this ((hkey e he).2 hke)
  | some e =>
    have he := List.mem_of_find?_eq_some hfind
    have hke : R k e.1 := (hkey e he).1 (List.find?_some (p := fun e : κ × κ => isKey e.1) hfind)
    constructor
    · exact fun h => ⟨e, he, hke, h⟩
    · rintro ⟨f, hf, hkf, hvalue⟩
      rw [hes.eq_of_mem hR he hf (hR.trans (hR.symm hke) hkf)]
      exact hvalue

end Entries

namespace Datum

/-- Equal but for the order in which dicts list their entries. -/
inductive Alike : Datum → Datum → Prop
  | number (n) : Alike (.number n) (.number n)
  | string (s) : Alike (.string s) (.string s)
  | list {xs ys} : List.Forall₂ Alike xs ys → Alike (.list xs) (.list ys)
  | dict {es gs fs} : List.Forall₂ (Prod.RProd Alike Alike) es gs → gs.Perm fs →
      Alike (.dict es) (.dict fs)
  | struct {xs ys} : List.Forall₂ Alike xs ys → Alike (.struct xs) (.struct ys)
  | vector (v) : Alike (.vector v) (.vector v)
  | uuid (u) : Alike (.uuid u) (.uuid u)
  | text (t) : Alike (.text t) (.text t)
  | extension (object) : Alike (.extension object) (.extension object)

theorem alike_string_iff {s t : String} : Alike (.string s) (.string t) ↔ s = t := by
  constructor
  · intro h
    cases h
    rfl
  · rintro rfl
    exact .string s

theorem alike_dict_iff {es fs : List (Datum × Datum)} : Alike (.dict es) (.dict fs) ↔
    ∃ gs, List.Forall₂ (fun e g => Alike e.1 g.1 ∧ Alike e.2 g.2) es gs ∧ gs.Perm fs := by
  constructor
  · rintro (_ | _ | _ | ⟨h, hperm⟩)
    exact ⟨_, h.imp (by rintro _ _ ⟨hk, hv⟩; exact ⟨hk, hv⟩), hperm⟩
  · rintro ⟨gs, h, hperm⟩
    exact .dict (h.imp fun _ _ h => ⟨h.1, h.2⟩) hperm

namespace Alike

theorem refl (d : Datum) : d.Alike d := by
  induction d with
  | list items ih => exact .list (List.forall₂_same.2 ih)
  | dict entries ih => exact alike_dict_iff.2 ⟨_, List.forall₂_same.2 ih, .refl _⟩
  | struct fields ih => exact .struct (List.forall₂_same.2 ih)
  | _ => constructor

theorem symm {d e : Datum} (h : d.Alike e) : e.Alike d := by
  induction d generalizing e with
  | list items ih =>
    cases h with
    | list h => exact .list (forall₂_imp_of_mem h fun d hd _ _ h => ih d hd h).flip
  | dict entries ih =>
    cases e with
    | dict fs =>
      obtain ⟨gs, h, hperm⟩ := alike_dict_iff.1 h
      have hback : List.Forall₂ (fun g e => Alike g.1 e.1 ∧ Alike g.2 e.2) gs entries :=
        (forall₂_imp_of_mem h fun e he _ _ h => ⟨(ih e he).1 h.1, (ih e he).2 h.2⟩).flip
      exact alike_dict_iff.2 (List.perm_comp_forall₂ hperm.symm hback)
    | _ => cases h
  | struct fields ih =>
    cases h with
    | struct h => exact .struct (forall₂_imp_of_mem h fun d hd _ _ h => ih d hd h).flip
  | _ =>
    cases h
    constructor

private theorem forall₂_trans {α : Type} {R : α → α → Prop} {as bs cs : List α}
    (hR : ∀ a ∈ as, ∀ {b c}, R a b → R b c → R a c) (hab : List.Forall₂ R as bs)
    (hbc : List.Forall₂ R bs cs) : List.Forall₂ R as cs := by
  induction hab generalizing cs with
  | nil => exact hbc
  | cons hab _ ih =>
    cases hbc with
    | cons hbc hrest =>
      have hR := List.forall_mem_cons.1 hR
      exact .cons (hR.1 hab hbc) (ih hR.2 hrest)

theorem trans {d e f : Datum} (hde : d.Alike e) (hef : e.Alike f) : d.Alike f := by
  induction d generalizing e f with
  | list items ih =>
    cases hde with
    | list hde => cases hef with
      | list hef => exact .list (forall₂_trans (fun d hd _ _ => ih d hd) hde hef)
  | dict entries ih =>
    cases e with
    | dict es => cases f with
      | dict fs =>
        obtain ⟨gs, hde, hperm⟩ := alike_dict_iff.1 hde
        obtain ⟨hs, hef, hperm'⟩ := alike_dict_iff.1 hef
        obtain ⟨is, hgs, his⟩ := List.perm_comp_forall₂ hperm hef
        refine alike_dict_iff.2
          ⟨is, forall₂_trans (fun e he _ _ h h' => ?_) hde hgs, his.trans hperm'⟩
        exact ⟨(ih e he).1 h.1 h'.1, (ih e he).2 h.2 h'.2⟩
      | _ => cases hef
    | _ => cases hde
  | struct fields ih =>
    cases hde with
    | struct hde => cases hef with
      | struct hef => exact .struct (forall₂_trans (fun d hd _ _ => ih d hd) hde hef)
  | _ =>
    cases hde
    exact hef

end Alike

theorem equivalence_alike : Equivalence Alike := ⟨.refl, .symm, .trans⟩

/-- Data that are alike are equally large. -/
theorem Alike.sizeOf_eq {d e : Datum} (h : d.Alike e) : sizeOf d = sizeOf e := by
  induction d generalizing e with
  | list items ih =>
    cases h with
    | list h =>
      have hsize := sizeOf_eq_of_forall₂ (forall₂_imp_of_mem h fun d hd _ _ h => ih d hd h)
      rw [list.sizeOf_spec, list.sizeOf_spec, hsize]
  | struct fields ih =>
    cases h with
    | struct h =>
      have hsize := sizeOf_eq_of_forall₂ (forall₂_imp_of_mem h fun d hd _ _ h => ih d hd h)
      rw [struct.sizeOf_spec, struct.sizeOf_spec, hsize]
  | dict entries ih =>
    cases e with
    | dict fs =>
      obtain ⟨gs, h, hperm⟩ := alike_dict_iff.1 h
      have hsize : sizeOf entries = sizeOf gs :=
        sizeOf_eq_of_forall₂ (forall₂_imp_of_mem h fun ⟨k, v⟩ he ⟨l, w⟩ _ h => by
          rw [Prod.mk.sizeOf_spec, Prod.mk.sizeOf_spec, (ih _ he).1 h.1, (ih _ he).2 h.2])
      rw [dict.sizeOf_spec, dict.sizeOf_spec, hsize, hperm.sizeOf_eq_sizeOf]
    | _ => cases h
  | _ =>
    cases h
    rfl

/-- If it is a dict, it holds no key twice. -/
def HasDistinctKeys : Datum → Prop
  | dict entries => KeysDiffer Alike entries
  | _ => True

/-- If it is a text, it has the property. -/
def TextHas (P : RichText → Prop) : Datum → Prop
  | text t => P t
  | _ => True

/-- Data that are alike hold the same texts. -/
theorem Alike.textHas {P : RichText → Prop} {d e : Datum} (hde : d.Alike e)
    (he : e.Everywhere (TextHas P)) : d.Everywhere (TextHas P) := by
  induction d generalizing e with
  | list items ih =>
    cases hde with
    | list hde =>
      refine everywhere_list.2 ⟨trivial, fun d hd => ?_⟩
      obtain ⟨e, hmem, hde⟩ := exists_right_of_forall₂ hde hd
      exact ih d hd hde ((everywhere_list.1 he).2 e hmem)
  | struct fields ih =>
    cases hde with
    | struct hde =>
      refine everywhere_struct.2 ⟨trivial, fun d hd => ?_⟩
      obtain ⟨e, hmem, hde⟩ := exists_right_of_forall₂ hde hd
      exact ih d hd hde ((everywhere_struct.1 he).2 e hmem)
  | dict entries ih =>
    cases e with
    | dict fs =>
      obtain ⟨gs, hde, hperm⟩ := alike_dict_iff.1 hde
      refine everywhere_dict.2 ⟨trivial, fun d hd => ?_⟩
      obtain ⟨e, hmem, hk, hv⟩ := exists_right_of_forall₂ hde hd
      have he := (everywhere_dict.1 he).2 e (hperm.subset hmem)
      exact ⟨(ih d hd).1 hk he.1, (ih d hd).2 hv he.2⟩
    | _ => cases hde
  | _ =>
    cases hde
    exact he

theorem sameItems_iff {xs ys : List Datum}
    (ih : ∀ x ∈ xs, ∀ y ∈ ys, (same x y = true ↔ x.Alike y)) :
    sameItems xs ys = true ↔ List.Forall₂ Alike xs ys := by
  induction xs generalizing ys with
  | nil => cases ys <;> simp [sameItems]
  | cons x xs ihs =>
    cases ys with
    | nil => simp [sameItems]
    | cons y ys =>
      rw [sameItems, Bool.and_eq_true, List.forall₂_cons, ih x (by simp) y (by simp),
        ihs fun x hx y hy => ih x (by simp [hx]) y (by simp [hy])]

theorem sameEntries_eq (es fs : List (Datum × Datum)) : sameEntries es fs =
    es.all fun e => (fs.find? fun f => same e.1 f.1).any fun f => same e.2 f.2 := by
  induction es with
  | nil => rfl
  | cons e es ih =>
    rw [sameEntries, ih, List.all_cons]
    cases fs.find? fun f => same e.1 f.1 <;> rfl

/-- Where no dict holds a key twice, scripts take data for equal just when they are alike. -/
theorem same_iff_alike {d e : Datum} (hplain : d.Everywhere IsPlain)
    (hd : d.Everywhere HasDistinctKeys) (he : e.Everywhere HasDistinctKeys) :
    d.same e = true ↔ d.Alike e := by
  induction d generalizing e with
  | list items ih =>
    cases e with
    | list items' =>
      have hp := (everywhere_list.1 hplain).2
      have hd := (everywhere_list.1 hd).2
      have he := (everywhere_list.1 he).2
      rw [same, sameItems_iff fun x hx y hy => ih x hx (hp x hx) (hd x hx) (he y hy)]
      exact ⟨.list, fun | .list h => h⟩
    | _ => exact ⟨nofun, nofun⟩
  | struct fields ih =>
    cases e with
    | struct fields' =>
      have hp := (everywhere_struct.1 hplain).2
      have hd := (everywhere_struct.1 hd).2
      have he := (everywhere_struct.1 he).2
      rw [same, sameItems_iff fun x hx y hy => ih x hx (hp x hx) (hd x hx) (he y hy)]
      exact ⟨.struct, fun | .struct h => h⟩
    | _ => exact ⟨nofun, nofun⟩
  | dict es ih =>
    cases e with
    | dict fs =>
      obtain ⟨_, hp⟩ := everywhere_dict.1 hplain
      obtain ⟨hes, hd⟩ := everywhere_dict.1 hd
      obtain ⟨hfs, he⟩ := everywhere_dict.1 he
      have hkey : ∀ e ∈ es, ∀ f ∈ fs, (same e.1 f.1 = true ↔ e.1.Alike f.1) :=
        fun e hes f hfs => (ih e hes).1 (hp e hes).1 (hd e hes).1 (he f hfs).1
      have hvalue : ∀ e ∈ es, ∀ f ∈ fs, (same e.2 f.2 = true ↔ e.2.Alike f.2) :=
        fun e hes f hfs => (ih e hes).2 (hp e hes).2 (hd e hes).2 (he f hfs).2
      rw [same, Bool.and_eq_true, sameEntries_eq, List.all_eq_true, decide_eq_true_iff,
        alike_dict_iff, ← exists_perm_iff equivalence_alike hes]
      refine and_congr_right fun _ => forall₂_congr fun e he => ?_
      refine (find?_any_iff (same e.1) (same e.2) equivalence_alike hfs (hkey e he)).trans ?_
      refine exists_congr fun f => and_congr_right fun hf => and_congr_right fun _ => ?_
      exact hvalue e he f hf
    | _ => exact ⟨nofun, nofun⟩
  | extension object => exact hplain.self.elim
  | _ => cases e <;> grind [same, cases Alike, intro Alike]

end Datum

end EventScript
