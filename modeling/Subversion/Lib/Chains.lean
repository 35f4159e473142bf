/-
This file follows chains of `next` pointers through an array of slots.
-/

import Mathlib.Data.List.Basic
import Mathlib.Tactic

namespace Chains

variable {S : Type}

/-- The head and the pointers behind it list exactly the slots of the chain. -/
def Linked (next : List (Option Nat)) : Option Nat → List Nat → Prop
  | head, [] => head = none
  | head, slot :: chain => head = some slot ∧ ∃ rest, next[slot]? = some rest ∧ Linked next rest chain

/-- The walk fails when it leaves the array, and when its fuel does not reach the end. -/
def walk (next : List (Option Nat)) (visit : S → Nat → Option S) : Nat → Option Nat → S → Option S
  | _, none, state => some state
  | 0, some _, _ => none
  | fuel + 1, some slot, state =>
      match visit state slot, next[slot]? with
      | some state, some rest => walk next visit fuel rest state
      | _, _ => none

/-- A write to a slot outside the chain keeps the chain. -/
theorem linked_set {next : List (Option Nat)} {head : Option Nat} {chain : List Nat} {slot : Nat}
    (rest : Option Nat) (linked : Linked next head chain) (outside : slot ∉ chain) :
    Linked (next.set slot rest) head chain := by
  induction chain generalizing head with
  | nil => exact linked
  | cons first chain ih =>
      obtain ⟨isFirst, second, read, linked⟩ := linked
      have different : slot ≠ first := fun equal => outside (equal ▸ List.mem_cons_self)
      refine ⟨isFirst, second, ?_, ih linked fun member => outside (List.mem_cons_of_mem _ member)⟩
      rw [List.getElem?_set_ne different]
      exact read

/-- A new slot is put in front of the chain. -/
theorem linked_push {next : List (Option Nat)} {head : Option Nat} {chain : List Nat} {slot : Nat}
    (linked : Linked next head chain) (inside : slot < next.length) (fresh : slot ∉ chain) :
    Linked (next.set slot head) (some slot) (slot :: chain) :=
  ⟨rfl, head, by simp [inside], linked_set head linked fresh⟩

/-- A chain whose slots decrease has no more slots than their bound. -/
theorem length_le_of_decreasing {chain : List Nat} {bound : Nat}
    (decreasing : chain.Pairwise (· > ·)) (below : ∀ slot ∈ chain, slot < bound) :
    chain.length ≤ bound := by
  induction chain generalizing bound with
  | nil => exact Nat.zero_le bound
  | cons slot chain ih =>
      obtain ⟨smaller, decreasing⟩ := List.pairwise_cons.mp decreasing
      have rest := ih decreasing smaller
      have first := below slot List.mem_cons_self
      rw [List.length_cons]
      omega

/-- A walk with enough fuel visits the slots of the chain in order. -/
theorem walk_linked {next : List (Option Nat)} (visit : S → Nat → Option S) {total : S → Nat → S}
    {head : Option Nat} {chain : List Nat} (linked : Linked next head chain)
    (agrees : ∀ state, ∀ slot ∈ chain, visit state slot = some (total state slot))
    (fuel : Nat) (enough : chain.length ≤ fuel) (state : S) :
    walk next visit fuel head state = some (chain.foldl total state) := by
  induction chain generalizing head fuel state with
  | nil =>
      obtain rfl := linked
      cases fuel <;> rfl
  | cons slot chain ih =>
      obtain ⟨rfl, rest, read, linked⟩ := linked
      cases fuel with
      | zero => simp at enough
      | succ fuel =>
          rw [List.length_cons] at enough
          rw [walk, read, agrees state slot List.mem_cons_self, List.foldl_cons]
          exact ih linked (fun state other member => agrees state other (List.mem_cons_of_mem _ member))
            fuel (by omega) _

end Chains
