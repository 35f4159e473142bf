/-
This file models the texts of long integers and proves that reading returns the written number.
-/

import Subversion.Fs.Id

namespace Subversion.Subr

open Delta Fs

def invalidRevnum : Int64 := -1

def isValidRevnum (revision : Int64) : Prop := 0 ≤ revision.toInt

instance (revision : Int64) : Decidable (isValidRevnum revision) :=
  inferInstanceAs (Decidable (_ ≤ _))

def isSpace (byte : UInt8) : Prop := byte = 32 ∨ (9 ≤ byte.toNat ∧ byte.toNat ≤ 13)

instance (byte : UInt8) : Decidable (isSpace byte) := inferInstanceAs (Decidable (_ ∨ _))

def digitsValue (value : Nat) : Bytes → Nat
  | [] => value
  | byte :: rest =>
      if isDigit byte then digitsValue (value * 10 + (byte.toNat - 48)) rest else value

/-- A number outside the range of a long integer gives the nearest one inside. -/
def atol (text : Bytes) : Int64 :=
  match text.dropWhile (isSpace ·) with
  | 45 :: digits => Int64.ofIntClamp (-(digitsValue 0 digits : Int))
  | 43 :: digits => Int64.ofIntClamp (digitsValue 0 digits)
  | digits => Int64.ofIntClamp (digitsValue 0 digits)

/-- The conversion `%ld`. -/
def putLong (value : Int64) : Bytes :=
  if 0 ≤ value.toInt then putSize value.toInt.toNat else 45 :: putSize (-value.toInt).toNat

theorem digitsValue_putDigits (fuel : Nat) :
    ∀ (value : Nat) (rest : Bytes), value < fuel →
      digitsValue 0 (putDigits fuel value ++ rest) = digitsValue value rest := by
  induction fuel with
  | zero =>
      intro value rest short
      omega
  | succ fuel ih =>
      intro value rest short
      have small : value % 10 < 10 := Nat.mod_lt _ (by decide)
      have step : ∀ prior, digitsValue prior (digitByte (value % 10) :: rest) =
          digitsValue (prior * 10 + value % 10) rest := by
        intro prior
        rw [digitsValue, if_pos (isDigit_digitByte small), digitByte_toNat small,
          Nat.add_sub_cancel_left]
      rw [putDigits, List.append_assoc, List.singleton_append]
      split
      · rw [ih (value / 10) _ (by omega), step]
        congr 1
        omega
      · rw [List.nil_append, step]
        congr 1
        omega

theorem digitsValue_putSize (value : Nat) : digitsValue 0 (putSize value) = value := by
  have read := digitsValue_putDigits (value + 1) value [] (Nat.lt_succ_self value)
  rwa [List.append_nil] at read

/-- The text of a number starts with a digit, so that nothing is skipped and no sign is seen. -/
theorem putSize_head (value : Nat) : ∃ byte bytes, putSize value = byte :: bytes ∧ ¬ isSpace byte ∧
    byte ≠ 45 ∧ byte ≠ 43 := by
  obtain ⟨byte, bytes, split⟩ := List.exists_cons_of_ne_nil (putSize_ne_nil value)
  have digit : isDigit byte := by
    apply isDigit_putDigits (value + 1) value byte
    rw [← putSize, split]
    exact List.mem_cons_self
  refine ⟨byte, bytes, split, ?_, ?_, ?_⟩
  · rintro (rfl | small)
    · exact absurd digit (by decide)
    · exact absurd digit.1 (by omega)
  · rintro rfl
    exact absurd digit (by decide)
  · rintro rfl
    exact absurd digit (by decide)

theorem atol_putSize (value : Nat) : atol (putSize value) = Int64.ofIntClamp value := by
  obtain ⟨byte, bytes, split, solid, minus, plus⟩ := putSize_head value
  have whole := digitsValue_putSize value
  rw [split] at whole ⊢
  rw [atol, List.dropWhile_cons_of_neg (by simpa using solid)]
  split
  · next same => exact absurd (List.cons.inj same).1 minus
  · next same => exact absurd (List.cons.inj same).1 plus
  · rw [whole]

theorem atol_putLong (value : Int64) : atol (putLong value) = value := by
  rw [putLong]
  split
  · next nonnegative =>
      rw [atol_putSize, Int.toNat_of_nonneg nonnegative, Int64.ofIntClamp_toInt]
  · next negative =>
      have read : atol (45 :: putSize (-value.toInt).toNat) =
          Int64.ofIntClamp (-((-value.toInt).toNat : Int)) := by
        rw [atol, List.dropWhile_cons_of_neg (by decide)]
        simp only [digitsValue_putSize]
      rw [read, Int.toNat_of_nonneg (by omega), Int.neg_neg, Int64.ofIntClamp_toInt]

end Subversion.Subr
