/-
This file compares the results of a recursion that is cut off when its budget is spent.
-/

import Mathlib.Tactic

namespace Budget

variable {E A B : Type} {spent : E}

/-- The first result either ran out of its budget or is the second result. -/
def Below (spent : E) (first second : Except E A) : Prop :=
  first = .error spent ∨ first = second

theorem Below.refl (result : Except E A) : Below spent result result := Or.inr rfl

theorem Below.trans {first second third : Except E A} (left : Below spent first second)
    (right : Below spent second third) : Below spent first third := by
  rcases left with out | rfl
  · exact Or.inl out
  · exact right

theorem Below.antisymm {first second : Except E A} (forth : Below spent first second)
    (back : Below spent second first) : first = second := by
  rcases forth with out | same
  · rcases back with alsoOut | same
    · rw [out, alsoOut]
    · exact same.symm
  · exact same

/-- A result that is not cut off is the final one. -/
theorem Below.eq {first second : Except E A} (below : Below spent first second)
    (finished : first ≠ .error spent) : second = first := by
  rcases below with out | same
  · exact absurd out finished
  · exact same.symm

theorem Below.ok {value : A} {second : Except E A} (below : Below spent (.ok value) second) :
    second = .ok value := below.eq (by simp)

/-- One step of a larger budget is enough for every larger budget. -/
theorem below_of_le {run : Nat → Except E A}
    (grows : ∀ budget, Below spent (run budget) (run (budget + 1))) {small large : Nat}
    (le : small ≤ large) : Below spent (run small) (run large) := by
  induction large, le using Nat.le_induction with
  | base => exact Below.refl _
  | succ large _ ih => exact ih.trans (grows large)

/-- The result that some budget is enough for. -/
def Returns (spent : E) (run : Nat → Except E A) (result : Except E A) : Prop :=
  result ≠ .error spent ∧ ∃ budget, run budget = result

/-- A recursion that is approximated by another one returns nothing else. -/
theorem Returns.mono {run other : Nat → Except E A} {result : Except E A}
    (returns : Returns spent run result)
    (below : ∀ budget, ∃ enough, Below spent (run budget) (other enough)) :
    Returns spent other result := by
  obtain ⟨finished, budget, rfl⟩ := returns
  obtain ⟨enough, step⟩ := below budget
  exact ⟨finished, enough, step.eq finished⟩

end Budget
