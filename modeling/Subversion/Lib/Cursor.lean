/-
This file finds the last of finitely many keys that a comparison function puts in order.
-/

import Mathlib.Order.Defs.LinearOrder
import Mathlib.Tactic

namespace Cursor

variable {K : Type} (compare : K → K → Ordering)

/-- The cursor's move to the last key. -/
def last : List K → Option K
  | [] => none
  | key :: keys =>
      match last keys with
      | none => some key
      | some later => if compare later key = .lt then some key else some later

/-- The cursor moves to the first key at or after the bound, and then one key back. -/
def lastBefore (bound : K) (keys : List K) : Option K :=
  last compare (keys.filter fun key => compare key bound = .lt)

variable {compare}

theorem last_mem {keys : List K} : ∀ {found : K}, last compare keys = some found → found ∈ keys := by
  induction keys with
  | nil =>
      intro found isLast
      cases isLast
  | cons key keys ih =>
      intro found isLast
      rw [last] at isLast
      split at isLast
      · cases isLast
        exact List.mem_cons_self
      · next later rest =>
          split at isLast
          · cases isLast
            exact List.mem_cons_self
          · cases isLast
            exact List.mem_cons_of_mem _ (ih rest)

theorem last_of_mem {keys : List K} {key : K} (member : key ∈ keys) :
    ∃ found, last compare keys = some found := by
  cases keys with
  | nil => cases member
  | cons first keys =>
      rw [last]
      split
      · exact ⟨first, rfl⟩
      · split
        · exact ⟨first, rfl⟩
        · exact ⟨_, rfl⟩

section Ordered

variable {P : Type} [LinearOrder P] {position : K → P}
  (follows : ∀ first second, compare first second = .lt ↔ position first < position second)

include follows

/-- No key stands behind the last one. -/
theorem le_last {keys : List K} :
    ∀ {found : K}, last compare keys = some found → ∀ key ∈ keys, position key ≤ position found := by
  induction keys with
  | nil =>
      intro found isLast
      cases isLast
  | cons first keys ih =>
      intro found isLast key member
      rw [last] at isLast
      cases rest : last compare keys with
      | none =>
          rw [rest] at isLast
          cases isLast
          rcases List.mem_cons.mp member with rfl | member
          · exact le_rfl
          · obtain ⟨other, isSome⟩ := @last_of_mem K compare keys key member
            rw [rest] at isSome
            cases isSome
      | some later =>
          rw [rest] at isLast
          have below := ih rest
          dsimp only at isLast
          split at isLast
          · next behind =>
              cases isLast
              have less := (follows later first).mp behind
              rcases List.mem_cons.mp member with rfl | member
              · exact le_rfl
              · exact (below key member).trans less.le
          · next notBehind =>
              cases isLast
              rcases List.mem_cons.mp member with rfl | member
              · rw [follows] at notBehind
                exact not_lt.mp notBehind
              · exact below key member

/-- The key found before a bound is the greatest of those below it. -/
theorem lastBefore_spec {bound found : K} {keys : List K}
    (isLast : lastBefore compare bound keys = some found) :
    found ∈ keys ∧ position found < position bound ∧
      ∀ key ∈ keys, position key < position bound → position key ≤ position found := by
  have member := last_mem isLast
  simp only [List.mem_filter, decide_eq_true_eq] at member
  refine ⟨member.1, (follows found bound).mp member.2, ?_⟩
  intro key isKey less
  apply le_last follows isLast key
  simp only [List.mem_filter, decide_eq_true_eq]
  exact ⟨isKey, (follows key bound).mpr less⟩

end Ordered

end Cursor
