/-
This file models how sizes are read and written in words of 64 bits, and shows that no digit is lost.
-/

import Subversion.Fs.IdText

namespace Subversion.Fs

open Delta

section Loops

/-- The loop over the digits. The check for overflow comes before the multiplication. -/
def getsizeLoop (max value : UInt64) (i : Nat) : Bytes → Option (UInt64 × Nat)
  | [] => some (value, i)
  | byte :: rest =>
      if isDigit byte then
        if max / 10 < value ∨ (value = max / 10 ∧ max % 10 < byte.toUInt64 - 48) then none
        else getsizeLoop max (value * 10 + (byte.toUInt64 - 48)) (i + 1) rest
      else some (value, i)

/-- The value, and the position after the digits. There must be at least one digit. -/
def svnFsGetsize (max : UInt64) (data : Bytes) : Option (UInt64 × Nat) :=
  match getsizeLoop max 0 0 data with
  | none => none
  | some (value, i) => if i = 0 then none else some (value, i)

/-- The digits, the least significant one first, for as long as there is room in the buffer. -/
def putsizeDigits (value : UInt64) (i : Nat) (data : Bytes) : Nat → Option (Nat × Bytes)
  | 0 => none
  | room + 1 =>
      if 0 < value / 10 then
        putsizeDigits (value / 10) (i + 1) (data.set i (digitByte (value % 10).toNat)) room
      else some (i + 1, data.set i (digitByte (value % 10).toNat))

/-- The loop that puts the digits in the other order. -/
def swapDigits (left : Nat) (data : Bytes) : Nat → Bytes
  | 0 => data
  | right + 1 =>
      if left < right + 1 then
        swapDigits (left + 1) ((data.set left (data.getD (right + 1) 0)).set (right + 1) (data.getD left 0))
          right
      else data

/-- The number of digits, and the buffer with the digits in front. -/
def svnFsPutsize (data : Bytes) (value : UInt64) : Option (Nat × Bytes) :=
  match putsizeDigits value 0 data data.length with
  | none => none
  | some (i, data) => some (i, swapDigits 0 data (i - 1))

end Loops

section Requirement

/-- The values that the loop computes are the ones of unbounded arithmetic. -/
def NoWrap (max value : UInt64) : Bytes → Prop
  | [] => True
  | byte :: rest =>
      isDigit byte → ¬ (max / 10 < value ∨ (value = max / 10 ∧ max % 10 < byte.toUInt64 - 48)) →
        (value * 10 + (byte.toUInt64 - 48)).toNat = value.toNat * 10 + (byte.toNat - 48) ∧
          NoWrap max (value * 10 + (byte.toUInt64 - 48)) rest

/-- The text begins with the digits of a number. -/
def StartsWith (data digits : Bytes) : Prop :=
  IsNumber digits ∧ ∃ rest, data = digits ++ rest ∧ NoDigitNext rest

structure KeepsSizes : Prop where
  reads : ∀ max data value count, svnFsGetsize max data = some (value, count) ↔
    ∃ digits, StartsWith data digits ∧ decimal digits ≤ max.toNat ∧ value.toNat = decimal digits ∧
      count = digits.length
  noWrap : ∀ max data, NoWrap max 0 data
  writes : ∀ data value, (svnFsPutsize data value).isSome = true ↔
    (putSize value.toNat).length ≤ data.length
  roundTrip : ∀ data value count text, svnFsPutsize data value = some (count, text) →
    ∀ max, value ≤ max → svnFsGetsize max (text.take count) = some (value, count)

end Requirement

section Reading

theorem digit_toNat {byte : UInt8} (digit : isDigit byte) :
    (byte.toUInt64 - 48).toNat = byte.toNat - 48 := by
  have low : (48 : UInt64) ≤ byte.toUInt64 := by
    rw [UInt64.le_iff_toNat_le, UInt8.toNat_toUInt64]
    exact digit.1
  rw [UInt64.toNat_sub_of_le _ _ low, UInt8.toNat_toUInt64]
  rfl

/-- The check on words is the one on numbers. -/
theorem overflows_word_iff (max value : UInt64) {byte : UInt8} (digit : isDigit byte) :
    max / 10 < value ∨ (value = max / 10 ∧ max % 10 < byte.toUInt64 - 48) ↔
      max.toNat < value.toNat * 10 + (byte.toNat - 48) := by
  have small : byte.toNat - 48 < 10 := by
    obtain ⟨low, high⟩ := digit
    omega
  rw [← overflows_iff max.toNat value.toNat small, UInt64.lt_iff_toNat_lt, UInt64.lt_iff_toNat_lt,
    ← UInt64.toNat_inj, digit_toNat digit, UInt64.toNat_div, UInt64.toNat_mod]
  rfl

/-- A value that passes the check is no larger than the limit, so it does not wrap. -/
theorem toNat_step (max value : UInt64) {byte : UInt8} (digit : isDigit byte)
    (passes : ¬ max.toNat < value.toNat * 10 + (byte.toNat - 48)) :
    (value * 10 + (byte.toUInt64 - 48)).toNat = value.toNat * 10 + (byte.toNat - 48) := by
  have bound := max.toNat_lt
  have ten : (10 : UInt64).toNat = 10 := rfl
  rw [UInt64.toNat_add, UInt64.toNat_mul, digit_toNat digit, ten, Nat.mod_add_mod]
  exact Nat.mod_eq_of_lt (by omega)

theorem noWrap (max : UInt64) (data : Bytes) : ∀ value, NoWrap max value data := by
  induction data with
  | nil => exact fun _ => trivial
  | cons byte rest ih =>
      intro value digit passes
      rw [overflows_word_iff max value digit] at passes
      exact ⟨toNat_step max value digit passes, ih _⟩

theorem getsizeLoop_append (max : UInt64) (digits rest : Bytes) (all : ∀ byte ∈ digits, isDigit byte)
    (ends : NoDigitNext rest) :
    ∀ (value : UInt64) (i : Nat), value ≤ max → getsizeLoop max value i (digits ++ rest) =
      if decimalFrom value.toNat digits ≤ max.toNat then
        some (UInt64.ofNat (decimalFrom value.toNat digits), i + digits.length)
      else none := by
  induction digits with
  | nil =>
      intro value i within
      have stops : getsizeLoop max value i rest = some (value, i) := by
        cases rest with
        | nil => rfl
        | cons byte more => rw [getsizeLoop, if_neg (ends byte more rfl)]
      rw [List.nil_append, stops, decimalFrom, List.foldl_nil,
        if_pos (UInt64.le_iff_toNat_le.mp within), UInt64.ofNat_toNat]
      rfl
  | cons byte digits ih =>
      intro value i _
      have digit := all byte List.mem_cons_self
      rw [List.cons_append, getsizeLoop, if_pos digit, decimalFrom_cons]
      simp only [overflows_word_iff max value digit]
      by_cases large : max.toNat < value.toNat * 10 + (byte.toNat - 48)
      · have later := le_decimalFrom digits (value.toNat * 10 + (byte.toNat - 48))
        rw [if_pos large, if_neg (by omega)]
      · have step := toNat_step max value digit large
        rw [if_neg large, ih (fun other member => all other (List.mem_cons_of_mem _ member)) _ _
          (UInt64.le_iff_toNat_le.mpr (by omega)), step, List.length_cons, Nat.add_assoc,
          Nat.add_comm 1]

theorem svnFsGetsize_append (max : UInt64) {digits rest : Bytes} (number : IsNumber digits)
    (ends : NoDigitNext rest) :
    svnFsGetsize max (digits ++ rest) =
      if decimal digits ≤ max.toNat then some (UInt64.ofNat (decimal digits), digits.length)
      else none := by
  rw [svnFsGetsize, getsizeLoop_append max digits rest number.2 ends 0 0 (UInt64.zero_le)]
  have positive := List.length_pos_iff.mpr number.1
  change (match (if decimal digits ≤ max.toNat then
    some (UInt64.ofNat (decimal digits), 0 + digits.length) else none) with
    | none => none
    | some (value, i) => if i = 0 then none else some (value, i)) = _
  split
  · next failed =>
      split at failed
      · cases failed
      · next large => rw [if_neg large]
  · next value i read =>
      split at read
      · next within =>
          cases read
          rw [if_pos within, if_neg (by omega), Nat.zero_add]
      · cases read

theorem svnFsGetsize_noDigit (max : UInt64) {rest : Bytes} (ends : NoDigitNext rest) :
    svnFsGetsize max rest = none := by
  rw [svnFsGetsize]
  cases rest with
  | nil => rfl
  | cons byte more =>
      rw [getsizeLoop, if_neg (ends byte more rfl)]
      rfl

theorem svnFsGetsize_eq_some_iff {max : UInt64} {data : Bytes} {value : UInt64} {count : Nat} :
    svnFsGetsize max data = some (value, count) ↔
      ∃ digits, StartsWith data digits ∧ decimal digits ≤ max.toNat ∧ value.toNat = decimal digits ∧
        count = digits.length := by
  constructor
  · intro read
    obtain ⟨digits, rest, rfl, all, ends⟩ := splitDigits data
    by_cases empty : digits = []
    · rw [empty, List.nil_append, svnFsGetsize_noDigit max ends] at read
      cases read
    · rw [svnFsGetsize_append max ⟨empty, all⟩ ends] at read
      split at read
      · next within =>
          have bound := max.toNat_lt
          cases read
          exact ⟨digits, ⟨⟨empty, all⟩, rest, rfl, ends⟩, within,
            UInt64.toNat_ofNat_of_lt' (by rw [UInt64.size]; omega), rfl⟩
      · cases read
  · rintro ⟨digits, ⟨number, rest, rfl, ends⟩, within, same, rfl⟩
    rw [svnFsGetsize_append max number ends, if_pos within, ← same, UInt64.ofNat_toNat]

/-- The reading on words refines the one on numbers. -/
theorem svnFsGetsize_eq (max : UInt64) (data : Bytes) :
    svnFsGetsize max data = (getSize max.toNat data).map fun read =>
      (UInt64.ofNat read.1, data.length - read.2.length) := by
  obtain ⟨digits, rest, rfl, all, ends⟩ := splitDigits data
  by_cases empty : digits = []
  · rw [empty, List.nil_append, svnFsGetsize_noDigit max ends]
    cases rest with
    | nil => rfl
    | cons byte more =>
        rw [getSize, if_neg (ends byte more rfl)]
        rfl
  · rw [svnFsGetsize_append max ⟨empty, all⟩ ends, getSize_append max.toNat ⟨empty, all⟩ ends]
    split
    · simp
    · rfl

end Reading

section Writing

theorem putSize_eq (value : Nat) :
    putSize value = (if 0 < value / 10 then putSize (value / 10) else []) ++ [digitByte (value % 10)] := by
  rw [putSize, putDigits]
  split
  · rw [putDigits_fuel value (value / 10) (by omega)]
  · rfl

/-- The digits go behind the ones that are there, for as long as there is room. -/
theorem putsizeDigits_eq (back : Bytes) : ∀ (front : Bytes) (value : UInt64),
    putsizeDigits value front.length (front ++ back) back.length =
      if (putSize value.toNat).length ≤ back.length then
        some (front.length + (putSize value.toNat).length,
          front ++ ((putSize value.toNat).reverse ++ back.drop (putSize value.toNat).length))
      else none := by
  induction back with
  | nil =>
      intro front value
      have positive := List.length_pos_iff.mpr (putSize_ne_nil value.toNat)
      rw [if_neg (by rw [List.length_nil]; omega)]
      rfl
  | cons byte back ih =>
      intro front value
      have quotient : (value / 10).toNat = value.toNat / 10 := UInt64.toNat_div _ _
      have remainder : (value % 10).toNat = value.toNat % 10 := UInt64.toNat_mod _ _
      have written : (front ++ byte :: back).set front.length (digitByte (value % 10).toNat) =
          (front ++ [digitByte (value.toNat % 10)]) ++ back := by
        rw [List.set_append_right _ _ le_rfl, Nat.sub_self, List.set_cons_zero, remainder,
          List.append_assoc, List.singleton_append]
      have more : 0 < value / 10 ↔ 0 < value.toNat / 10 := by
        rw [UInt64.lt_iff_toNat_lt, quotient]
        rfl
      have step := ih (front ++ [digitByte (value.toNat % 10)]) (value / 10)
      rw [List.length_append, List.length_singleton, quotient] at step
      rw [List.length_cons, putsizeDigits, written]
      by_cases larger : 0 < value.toNat / 10
      · have digits : putSize value.toNat = putSize (value.toNat / 10) ++ [digitByte (value.toNat % 10)] := by
          rw [putSize_eq, if_pos larger]
        rw [if_pos (more.mpr larger), step, digits]
        simp [Nat.add_assoc, Nat.add_comm 1]
      · have digits : putSize value.toNat = [digitByte (value.toNat % 10)] := by
          rw [putSize_eq, if_neg larger, List.nil_append]
        rw [if_neg (mt more.mp larger), digits]
        simp

/-- The loop swaps the ends of a range until it meets in the middle. -/
theorem swapDigits_eq (middle : Bytes) : ∀ (front back : Bytes), middle ≠ [] →
    swapDigits front.length (front ++ (middle ++ back)) (front.length + middle.length - 1) =
      front ++ (middle.reverse ++ back) := by
  induction middle using List.bidirectionalRec with
  | nil => exact fun _ _ nonempty => absurd rfl nonempty
  | singleton byte =>
      intro front back _
      rw [List.length_singleton, Nat.add_sub_cancel, List.reverse_singleton]
      cases length : front.length with
      | zero => rfl
      | succ length => rw [swapDigits, if_neg (Nat.lt_irrefl _)]
  | cons_append first middle last ih =>
      intro front back _
      have right : front.length + (first :: (middle ++ [last])).length - 1 =
          front.length + middle.length + 1 := by
        rw [List.length_cons, List.length_append, List.length_singleton]
        omega
      have text : front ++ (first :: (middle ++ [last]) ++ back) =
          front ++ first :: (middle ++ last :: back) := by simp
      have atLeft : (front ++ first :: (middle ++ last :: back)).getD front.length 0 = first := by
        simp
      have atRight : (front ++ first :: (middle ++ last :: back)).getD
          (front.length + middle.length + 1) 0 = last := by
        simp [List.getD_eq_getElem?_getD, Nat.add_assoc]
      have swapped : ((front ++ first :: (middle ++ last :: back)).set front.length last).set
          (front.length + middle.length + 1) first = (front ++ [last]) ++ (middle ++ first :: back) := by
        simp [Nat.add_assoc]
      rw [right, text, swapDigits, if_pos (by omega), atLeft, atRight, swapped]
      by_cases empty : middle = []
      · subst empty
        have stops : ∀ data : Bytes, swapDigits (front.length + 1) data (front.length + 0) = data := by
          intro data
          cases length : front.length with
          | zero => rfl
          | succ length => rw [Nat.add_zero, swapDigits, if_neg (by omega)]
        rw [List.length_nil, stops]
        simp
      · have inner := ih (front ++ [last]) (first :: back) empty
        rw [List.length_append, List.length_singleton, Nat.add_right_comm, Nat.add_sub_cancel] at inner
        rw [inner]
        simp

/-- The text of the size stands in front of the buffer, if there is room for it. -/
theorem svnFsPutsize_eq (data : Bytes) (value : UInt64) :
    svnFsPutsize data value =
      if (putSize value.toNat).length ≤ data.length then
        some ((putSize value.toNat).length,
          putSize value.toNat ++ data.drop (putSize value.toNat).length)
      else none := by
  have made := putsizeDigits_eq data [] value
  have swapped := swapDigits_eq (putSize value.toNat).reverse [] (data.drop (putSize value.toNat).length)
    (List.reverse_ne_nil_iff.mpr (putSize_ne_nil value.toNat))
  rw [List.length_nil, List.nil_append, List.nil_append, Nat.zero_add] at made
  rw [List.length_nil, List.nil_append, List.nil_append, Nat.zero_add, List.length_reverse,
    List.reverse_reverse] at swapped
  rw [svnFsPutsize, made]
  by_cases room : (putSize value.toNat).length ≤ data.length
  · rw [if_pos room, if_pos room]
    dsimp only
    rw [swapped]
  · rw [if_neg room, if_neg room]

theorem decimal_putSize (value : Nat) : decimal (putSize value) = value := by
  have ends : NoDigitNext [] := fun _ _ split => nomatch split
  have read : getSize value (putSize value ++ []) = some (value, []) := by
    rw [getSize_putSize value value ends, if_pos le_rfl]
  rw [getSize_append value (isNumber_putSize value) ends] at read
  split at read
  · exact congrArg Prod.fst (Option.some.inj read)
  · cases read

/-- What fits in the buffer is read back. -/
theorem svnFsGetsize_svnFsPutsize {data text : Bytes} {value max : UInt64} {count : Nat}
    (put : svnFsPutsize data value = some (count, text)) (within : value ≤ max) :
    svnFsGetsize max (text.take count) = some (value, count) := by
  rw [svnFsPutsize_eq] at put
  split at put
  · cases put
    rw [svnFsGetsize_eq_some_iff, List.take_left]
    have ends : NoDigitNext [] := fun _ _ split => nomatch split
    refine ⟨putSize value.toNat, ⟨isNumber_putSize _, [], (List.append_nil _).symm, ends⟩, ?_,
      (decimal_putSize _).symm, rfl⟩
    rw [decimal_putSize]
    exact UInt64.le_iff_toNat_le.mp within
  · cases put

/-- Sizes are read exactly, up to the limit, and what is written is read back. -/
theorem keepsSizes : KeepsSizes where
  reads := fun _ _ _ _ => svnFsGetsize_eq_some_iff
  noWrap := fun max data => noWrap max data 0
  writes := by
    intro data value
    rw [svnFsPutsize_eq]
    split
    · next room => simp [room]
    · next full => simp [full]
  roundTrip := fun _ _ _ _ put _ within => svnFsGetsize_svnFsPutsize put within

end Writing

end Subversion.Fs
