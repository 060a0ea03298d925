/-!
# Rules for counted loops that may fail

A loop over `0, …, n - 1` whose body may have no result completes, and
establishes its invariant at the count `n`, when every iteration succeeds and
carries the invariant from one count to the next.
-/

namespace Emilib

universe u

variable {σ : Type u}

/-- The rule for a loop over a range in the option monad. -/
theorem foldlM_range_rule (body : σ → Nat → Option σ) (holds : Nat → σ → Prop) (count : Nat)
    (state : σ) (initially : holds 0 state)
    (carried : ∀ index state, index < count → holds index state →
      ∃ next, body state index = some next ∧ holds (index + 1) next) :
    ∃ final, (List.range count).foldlM body state = some final ∧ holds count final := by
  induction count with
  | zero => exact ⟨state, rfl, initially⟩
  | succ count inductionHypothesis =>
    obtain ⟨middle, looped, held⟩ := inductionHypothesis
      (fun index state bound => carried index state (Nat.lt_succ_of_lt bound))
    obtain ⟨final, stepped, finished⟩ := carried count middle (Nat.lt_succ_self count) held
    refine ⟨final, ?_, finished⟩
    rw [List.range_succ, List.foldlM_append, looped]
    simp [stepped]

end Emilib
