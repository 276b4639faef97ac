import EventScript.Diagnostic
import EventScript.Proofs.Outcome

/-!
What compilation complains about. Reading and lowering find fault with a place that a token or a node
of a tree has; only the table of signatures complains of a name that is defined twice.
-/
namespace EventScript

/-- Where a complaint about a single source can point to. -/
structure Span.Places (S : Span → Prop) : Prop where
  none : S .none
  merge : ∀ {a b : Span}, S a → S b → S (a.merge b)

/-- The error is about a place, in a source that is not named yet, and not about a name that is
defined twice. -/
structure CompileError.At (S : Span → Prop) (e : CompileError) : Prop where
  span : S e.span
  source : e.source? = none
  kind : e.kind ≠ .duplicateSchema

/-- All that goes wrong is about a place. -/
def FailsAt {α : Type} (S : Span → Prop) (x : Compiled α) : Prop := ∀ e, x = .error e → e.At S

section

variable {α β : Type} {S : Span → Prop} {x : Compiled α}

theorem failsAt_ok {a : α} : FailsAt S (.ok a) := fun _ h => nomatch h

theorem failsAt_refuse {complaint : CompileError.Complaint} {span : Span} (hspan : S span)
    (hkind : complaint.kind ≠ .duplicateSchema := by simp [CompileError.Complaint.kind]) :
    FailsAt S (refuse complaint span : Compiled α) := by
  rintro e ⟨⟩
  exact ⟨hspan, rfl, hkind⟩

/-- A failure that is passed on. -/
theorem failsAt_error {e : CompileError} (hx : FailsAt S x) (h : x = .error e) :
    FailsAt S (.error e : Compiled β) := by
  rintro _ ⟨⟩
  exact hx e h

theorem failsAt_bind {f : α → Compiled β} (hx : FailsAt S x) (hf : ∀ a, FailsAt S (f a)) :
    FailsAt S (x >>= f) := by
  intro e h
  rcases bind_eq_error.1 h with h | ⟨a, _, h⟩
  · exact hx e h
  · exact hf a e h

theorem failsAt_map {f : α → β} (hx : FailsAt S x) : FailsAt S (x.map f) :=
  fun e h => hx e (map_eq_error.1 h)

end

end EventScript
