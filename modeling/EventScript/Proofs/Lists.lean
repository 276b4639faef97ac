import Mathlib.Data.List.Forall2

/-!
Lists that correspond item by item, and what folds over a list gather.
-/
namespace EventScript

section Correspondence

variable {α β : Type} {R S : α → β → Prop} {as : List α} {bs : List β}

theorem forall₂_imp_of_mem (h : List.Forall₂ R as bs)
    (hRS : ∀ a ∈ as, ∀ b ∈ bs, R a b → S a b) : List.Forall₂ S as bs := by
  induction h with
  | nil => exact .nil
  | cons hab _ ih =>
    refine .cons (hRS _ (by simp) _ (by simp) hab) (ih fun a ha b hb => ?_)
    exact hRS a (by simp [ha]) b (by simp [hb])

theorem exists_right_of_forall₂ (h : List.Forall₂ R as bs) {a : α} (ha : a ∈ as) :
    ∃ b ∈ bs, R a b := by
  induction h with
  | nil => cases ha
  | cons hab _ ih =>
    rcases List.mem_cons.1 ha with rfl | ha
    · exact ⟨_, by simp, hab⟩
    · obtain ⟨b, hb, hab⟩ := ih ha
      exact ⟨b, by simp [hb], hab⟩

theorem exists_left_of_forall₂ (h : List.Forall₂ R as bs) {b : β} (hb : b ∈ bs) :
    ∃ a ∈ as, R a b :=
  exists_right_of_forall₂ (R := flip R) h.flip hb

theorem exists_getElem?_of_forall₂ (h : List.Forall₂ R as bs) {i : Nat} {a : α}
    (ha : as[i]? = some a) : ∃ b, bs[i]? = some b ∧ R a b := by
  induction h generalizing i with
  | nil => cases ha
  | cons hab _ ih =>
    cases i with
    | zero =>
      cases ha
      exact ⟨_, rfl, hab⟩
    | succ i => exact ih ha

theorem sizeOf_eq_of_forall₂ [SizeOf α] {as bs : List α}
    (h : List.Forall₂ (fun a b => sizeOf a = sizeOf b) as bs) : sizeOf as = sizeOf bs := by
  induction h with
  | nil => rfl
  | cons hab _ ih => rw [List.cons.sizeOf_spec, List.cons.sizeOf_spec, hab, ih]

theorem exists_forall₂ (h : ∀ a ∈ as, ∃ b, R a b) : ∃ bs, List.Forall₂ R as bs := by
  induction as with
  | nil => exact ⟨[], .nil⟩
  | cons a as ih =>
    have h := List.forall_mem_cons.1 h
    obtain ⟨b, hab⟩ := h.1
    obtain ⟨bs, habs⟩ := ih h.2
    exact ⟨b :: bs, .cons hab habs⟩

theorem pairwise_of_forall₂ {P : α → α → Prop} {Q : β → β → Prop} (h : List.Forall₂ R as bs)
    (hP : as.Pairwise P) (hPQ : ∀ {a a' b b'}, R a b → R a' b' → P a a' → Q b b') :
    bs.Pairwise Q := by
  induction h with
  | nil => exact .nil
  | cons hab hrest ih =>
    have hP := List.pairwise_cons.1 hP
    refine List.pairwise_cons.2 ⟨fun b' hb' => ?_, ih hP.2⟩
    obtain ⟨a', ha', hab'⟩ := exists_left_of_forall₂ hrest hb'
    exact hPQ hab hab' (hP.1 a' ha')

end Correspondence

section Folds

variable {α β : Type} {f : β → α → β} {as : List α}

/-- A measure that no item raises by more than one. -/
theorem foldl_measure_le (measure : β → Nat) (hstep : ∀ b a, measure (f b a) ≤ measure b + 1)
    (as : List α) (b : β) : measure (as.foldl f b) ≤ measure b + as.length := by
  induction as generalizing b with
  | nil => exact Nat.le_refl _
  | cons a as ih =>
    have := ih (f b a)
    have := hstep b a
    simp only [List.foldl_cons, List.length_cons]
    omega

/-- Items that are put behind those before them, since they stand in a relation to them all. -/
theorem foldl_eq_of_pairwise {R : α → α → Prop} (g : List α → β)
    (hstep : ∀ as a, (∀ b ∈ as, R b a) → f (g as) a = g (as ++ [a])) (h : as.Pairwise R) :
    as.foldl f (g []) = g as := by
  have hfold (bs : List α) (h : (bs ++ as).Pairwise R) : as.foldl f (g bs) = g (bs ++ as) := by
    induction as generalizing bs with
    | nil => rw [List.append_nil, List.foldl_nil]
    | cons a as ih =>
      have ha := (List.pairwise_append.1 h).2.2
      rw [List.append_cons] at h ⊢
      rw [List.foldl_cons, hstep bs a fun b hb => ha b hb a List.mem_cons_self]
      exact ih (List.pairwise_append.1 h).2.1 _ h
  exact hfold [] h

end Folds

end EventScript
