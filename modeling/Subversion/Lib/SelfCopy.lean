/-
This file copies bytes of a growing output onto its own end, one byte at a time.
-/

import Mathlib.Data.List.Basic
import Mathlib.Tactic

namespace SelfCopy

variable {α : Type}

/-- The copied range may overlap the bytes that the copy appends. -/
def selfCopy (out : List α) (offset : Nat) : Nat → List α
  | 0 => out
  | count + 1 =>
      match out[offset]? with
      | some value => selfCopy (out ++ [value]) (offset + 1) count
      | none => out

/-- An in-bounds block copy returns exactly the requested bytes. -/
def slice (buffer : List α) (offset length : Nat) : Option (List α) :=
  if offset + length ≤ buffer.length then some ((buffer.drop offset).take length) else none

theorem slice_eq_some {buffer bytes : List α} {offset length : Nat}
    (equal : slice buffer offset length = some bytes) :
    offset + length ≤ buffer.length ∧ bytes = (buffer.drop offset).take length := by
  unfold slice at equal
  split at equal
  · next inside => exact ⟨inside, (Option.some.inj equal).symm⟩
  · cases equal

theorem slice_length {buffer bytes : List α} {offset length : Nat}
    (equal : slice buffer offset length = some bytes) : bytes.length = length := by
  obtain ⟨inside, rfl⟩ := slice_eq_some equal
  simp
  omega

theorem selfCopy_length (out : List α) (offset count : Nat) (inside : offset < out.length) :
    (selfCopy out offset count).length = out.length + count := by
  induction count generalizing out offset with
  | zero => rfl
  | succ count ih =>
      rw [selfCopy, List.getElem?_eq_getElem inside]
      simp only
      rw [ih _ _ (by simp; omega)]
      simp
      omega

theorem selfCopy_prefix (out : List α) (offset count : Nat) : out <+: selfCopy out offset count := by
  induction count generalizing out offset with
  | zero => exact List.prefix_rfl
  | succ count ih =>
      rw [selfCopy]
      split
      · exact (List.prefix_append _ _).trans (ih _ _)
      · exact List.prefix_rfl

/-- A copy of matching bytes extends a prefix of the data to a longer prefix. -/
theorem selfCopy_take (data : List α) (offset position count : Nat)
    (before : offset < position) (inside : position + count ≤ data.length)
    (same : ∀ index, index < count → data[offset + index]? = data[position + index]?) :
    selfCopy (data.take position) offset count = data.take (position + count) := by
  induction count generalizing offset position with
  | zero => rfl
  | succ count ih =>
      have first : (data.take position)[offset]? = data[position]? := by
        rw [List.getElem?_take_of_lt before]
        simpa using same 0 (by omega)
      have next : data[position]? = some (data.get ⟨position, by omega⟩) := by
        rw [List.getElem?_eq_getElem (by omega)]
        rfl
      rw [selfCopy, first, next]
      simp only
      have grown : data.take position ++ [data.get ⟨position, by omega⟩] =
          data.take (position + 1) := by
        rw [List.take_add_one, next]
        rfl
      rw [grown, ih (offset + 1) (position + 1) (by omega) (by omega)]
      · congr 1
        omega
      · intro index less
        have shifted := same (index + 1) (by omega)
        simpa only [Nat.add_assoc, Nat.add_comm 1 index] using shifted

end SelfCopy
