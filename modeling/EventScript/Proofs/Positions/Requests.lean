import EventScript.Proofs.Positions.Pools

/-!
Pools under any requests. Whatever has been asked for, a literal stands where the answer says, each
literal stands there once, and none moves when more is asked for. A literal that is there is always
found; another is refused when the last position is taken.
-/
namespace EventScript

namespace Pools

/-- The pooled literals by their positions. -/
def constants (p : Pools) : Array Literal := p.literals.entries.map (·.1)

/-- What pools can be asked for. -/
inductive Request where
  | literal (l : Literal) (span : Span)
  | host (name : String) (call : HostFunction) (span : Span)

def find (p : Pools) : Request → Compiled (Nat × Pools)
  | .literal l span => p.literal l span
  | .host name call span => p.host name call span

/-- Answers a request with a position. Pools that refuse one stay as they are. -/
def serve (p : Pools) (r : Request) : Option Nat × Pools :=
  match p.find r with
  | .ok (i, p') => (some i, p')
  | .error _ => (none, p)

/-- What becomes of pools. -/
def after (p : Pools) (rs : List Request) : Pools := rs.foldl (fun p r => (p.serve r).2) p

/-- Literals are found where they are, and only those that have no position are refused. -/
structure KeepsConstants (p : Pools) : Prop where
  distinct : p.constants.toList.Nodup
  answered : ∀ l span i, (p.serve (.literal l span)).1 = some i →
    (p.serve (.literal l span)).2.constants[i]? = some l
  found : ∀ (i : Nat) l span, p.constants[i]? = some l → p.serve (.literal l span) = (some i, p)
  refused : ∀ l span, (p.serve (.literal l span)).1 = none →
    (p.serve (.literal l span)).2 = p ∧ l ∉ p.constants ∧ p.constants.size = maxPosition + 1

variable {p p' q : Pools} {r : Request} {rs : List Request} {l : Literal} {span : Span} {i : Nat}

theorem constants_eq_some_iff : p.constants[i]? = some l ↔ p.literals.position? l = some i := by
  simp [constants, Table.position?_eq_some_iff]

theorem mem_constants_iff : l ∈ p.constants ↔ p.literals.Has l := by
  simp [← Table.mem_keys_iff, Table.keys, constants]

theorem nodup_constants (p : Pools) : p.constants.toList.Nodup := by
  simpa [Table.keys, constants] using p.literals.nodup_keys

/-! ### One request -/

theorem serve_eq_some (h : p.find r = .ok (i, q)) : p.serve r = (some i, q) := by
  rw [serve, h]

theorem literals_of_serve_host {name : String} {call : HostFunction} :
    (p.serve (.host name call span)).2.literals = p.literals := by
  unfold serve
  split
  · rename_i h
    obtain ⟨-, rfl, -⟩ := host_eq_ok.1 h
    rfl
  · rfl

/-- A literal that is asked for is there, or is added if there is room. -/
theorem serve_literal_cases (p : Pools) (l : Literal) (span : Span) :
    (∃ i, (p.literals.Has l ∨ p.literals.size ≤ maxPosition) ∧
      (p.literals.adding l ()).position? l = some i ∧
        p.serve (.literal l span) = (some i, { p with literals := p.literals.adding l () })) ∨
      ¬p.literals.Has l ∧ maxPosition < p.literals.size ∧
        p.serve (.literal l span) = (none, p) := by
  cases h : p.find (.literal l span) with
  | ok r =>
    obtain ⟨hroom, hq, hi⟩ := literal_eq_ok.1 (show p.literal l span = .ok (r.1, r.2) from h)
    exact .inl ⟨r.1, hroom, hi, by rw [serve, h, ← hq]⟩
  | error e =>
    have hfull : ¬(p.literals.Has l ∨ p.literals.size ≤ maxPosition) := by
      intro hroom
      have hhas : (p.literals.adding l ()).Has l := Table.has_adding_iff.2 (.inl rfl)
      obtain ⟨i, hi⟩ := Table.position?_of_has hhas
      have hok : p.literal l span = .ok (i, _) := literal_eq_ok.2 ⟨hroom, rfl, hi⟩
      exact nomatch h.symm.trans hok
    rw [not_or, Nat.not_le] at hfull
    exact .inr ⟨hfull.1, hfull.2, by rw [serve, h]⟩

/-- No request moves a literal. -/
theorem constants_serve (r : Request) (h : p.constants[i]? = some l) :
    (p.serve r).2.constants[i]? = some l := by
  cases r with
  | literal k span =>
    rcases serve_literal_cases p k span with ⟨j, -, -, hserve⟩ | ⟨-, -, hserve⟩
    · rw [constants_eq_some_iff] at h ⊢
      obtain ⟨a, ha⟩ := Table.position?_eq_some_iff.1 h
      rw [hserve]
      exact Table.position?_of_entry (Table.entry_adding_of_entry ha)
    · rwa [hserve]
  | host => rwa [constants, literals_of_serve_host]

/-- There are never more literals than positions. -/
theorem size_serve (r : Request) (h : p.literals.size ≤ maxPosition + 1) :
    (p.serve r).2.literals.size ≤ maxPosition + 1 := by
  cases r with
  | literal k span =>
    rcases serve_literal_cases p k span with ⟨j, hroom, -, hserve⟩ | ⟨-, -, hserve⟩
    · rw [hserve]
      by_cases hk : p.literals.Has k
      · rwa [Table.adding_of_has hk]
      · rw [Table.size_adding_of_not_has hk]
        exact Nat.succ_le_succ (hroom.resolve_left hk)
    · rwa [hserve]
  | host => rwa [literals_of_serve_host]

/-! ### All requests -/

theorem constants_after (rs : List Request) (h : p.constants[i]? = some l) :
    (p.after rs).constants[i]? = some l := by
  induction rs generalizing p with
  | nil => exact h
  | cons r rs ih => exact ih (constants_serve r h)

theorem size_after (rs : List Request) (h : p.literals.size ≤ maxPosition + 1) :
    (p.after rs).literals.size ≤ maxPosition + 1 := by
  induction rs generalizing p with
  | nil => exact h
  | cons r rs ih => exact ih (size_serve r h)

theorem after_append (p : Pools) (rs more : List Request) :
    p.after (rs ++ more) = (p.after rs).after more := List.foldl_append

theorem keepsConstants (h : p.literals.size ≤ maxPosition + 1) : p.KeepsConstants where
  distinct := p.nodup_constants
  answered l span i hi := by
    rcases serve_literal_cases p l span with ⟨j, -, hj, hserve⟩ | ⟨-, -, hserve⟩
    · rw [hserve] at hi ⊢
      obtain rfl : j = i := Option.some.inj hi
      exact constants_eq_some_iff.2 hj
    · rw [hserve] at hi
      cases hi
  found i l span hi := by
    have hhas : p.literals.Has l := mem_constants_iff.1 (Array.mem_of_getElem? hi)
    refine serve_eq_some (literal_eq_ok.2 ⟨.inl hhas, ?_, ?_⟩)
    · rw [Table.adding_of_has hhas]
    · rwa [Table.adding_of_has hhas, ← constants_eq_some_iff]
  refused l span hnone := by
    rcases serve_literal_cases p l span with ⟨j, -, -, hserve⟩ | ⟨hl, hfull, hserve⟩
    · rw [hserve] at hnone
      cases hnone
    · refine ⟨by rw [hserve], mem_constants_iff.not.2 hl, ?_⟩
      rw [constants, Array.size_map]
      exact Nat.le_antisymm h hfull

/-! ### Pools that come of others -/

/-- Some requests lead from these pools to the others. -/
def Reaches (p q : Pools) : Prop := ∃ rs, p.after rs = q

theorem Reaches.refl (p : Pools) : p.Reaches p := ⟨[], rfl⟩

theorem Reaches.trans (h : p.Reaches q) (h' : q.Reaches p') : p.Reaches p' := by
  obtain ⟨rs, rfl⟩ := h
  obtain ⟨more, rfl⟩ := h'
  exact ⟨rs ++ more, after_append p rs more⟩

theorem Reaches.constants (h : p.Reaches q) (hi : p.constants[i]? = some l) :
    q.constants[i]? = some l := by
  obtain ⟨rs, rfl⟩ := h
  exact constants_after rs hi

theorem reaches_of_find (h : p.find r = .ok (i, q)) : p.Reaches q := by
  refine ⟨[r], ?_⟩
  change (p.serve r).2 = q
  rw [serve_eq_some h]

end Pools

end EventScript
