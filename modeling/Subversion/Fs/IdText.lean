/-
This file compares the texts that are read as ids with their documented grammar.
-/

import Mathlib.Data.List.TakeWhile
import Subversion.Fs.Id

namespace Subversion.Fs

open Delta

/-- The value of a sequence of digits that follows digits of the given value. -/
def decimalFrom (value : Nat) (digits : Bytes) : Nat :=
  digits.foldl (fun value byte => value * 10 + (byte.toNat - 48)) value

def decimal (digits : Bytes) : Nat := decimalFrom 0 digits

/-- A sequence of at least one digit. -/
def IsNumber (text : Bytes) : Prop := text ≠ [] ∧ ∀ byte ∈ text, isDigit byte

/-- The text is made of numbers with dots between them. -/
def Dotted (data : Bytes) (parts : List Bytes) : Prop :=
  parts ≠ [] ∧ data = [46].intercalate parts ∧ ∀ part ∈ parts, IsNumber part

/-- A zero stands before other digits. -/
def RedundantZero (digits : Bytes) : Prop := ∃ rest, rest ≠ [] ∧ digits = 48 :: rest

/-- What the texts of ids are, and how they are read and written. -/
structure ReadsIds (parse : Bytes → Option NodeId) (unparse : NodeId → Bytes) : Prop where
  accepts : ∀ data id, parse data = some id ↔
    ∃ parts, Dotted data parts ∧ id = parts.map decimal ∧ WithinLimit id
  roundTrip : ∀ id, id ≠ [] → WithinLimit id → parse (unparse id) = some id
  canonical : ∀ data parts id, Dotted data parts → parse data = some id →
    (unparse id = data ↔ ∀ part ∈ parts, ¬ RedundantZero part)

section Numbers

/-- The text does not go on with a digit. -/
def NoDigitNext (rest : Bytes) : Prop := ∀ byte more, rest = byte :: more → ¬ isDigit byte

theorem decimalFrom_cons (value : Nat) (byte : UInt8) (digits : Bytes) :
    decimalFrom value (byte :: digits) = decimalFrom (value * 10 + (byte.toNat - 48)) digits := by
  rw [decimalFrom, decimalFrom, List.foldl_cons]

theorem le_decimalFrom (digits : Bytes) : ∀ value, value ≤ decimalFrom value digits := by
  induction digits with
  | nil => exact fun _ => le_rfl
  | cons byte digits ih =>
      intro value
      have later := ih (value * 10 + (byte.toNat - 48))
      rw [decimalFrom_cons]
      omega

/-- The check for overflow looks ahead by one digit. -/
theorem overflows_iff (max value : Nat) {digit : Nat} (small : digit < 10) :
    max / 10 < value ∨ (value = max / 10 ∧ max % 10 < digit) ↔ max < value * 10 + digit := by
  omega

theorem getDigits_append (max : Nat) (digits rest : Bytes) (all : ∀ byte ∈ digits, isDigit byte)
    (ends : NoDigitNext rest) :
    ∀ value, value ≤ max → getDigits max value (digits ++ rest) =
      if decimalFrom value digits ≤ max then some (decimalFrom value digits, rest) else none := by
  induction digits with
  | nil =>
      intro value within
      have stops : getDigits max value rest = some (value, rest) := by
        cases rest with
        | nil => rfl
        | cons byte more => rw [getDigits, if_neg (ends byte more rfl)]
      rw [List.nil_append, stops]
      exact (if_pos within).symm
  | cons byte digits ih =>
      intro value _
      obtain ⟨low, high⟩ := all byte List.mem_cons_self
      have small : byte.toNat - 48 < 10 := by omega
      rw [List.cons_append, getDigits, if_pos ⟨low, high⟩, decimalFrom_cons]
      simp only [overflows_iff max value small]
      by_cases large : max < value * 10 + (byte.toNat - 48)
      · have later := le_decimalFrom digits (value * 10 + (byte.toNat - 48))
        rw [if_pos large, if_neg (by omega)]
      · rw [if_neg large]
        exact ih (fun other member => all other (List.mem_cons_of_mem _ member)) _ (by omega)

theorem getSize_append (max : Nat) {digits : Bytes} (number : IsNumber digits) {rest : Bytes}
    (ends : NoDigitNext rest) :
    getSize max (digits ++ rest) =
      if decimal digits ≤ max then some (decimal digits, rest) else none := by
  obtain ⟨nonempty, all⟩ := number
  cases digits with
  | nil => exact absurd rfl nonempty
  | cons byte digits =>
      rw [List.cons_append, getSize, if_pos (all byte List.mem_cons_self), ← List.cons_append]
      exact getDigits_append max (byte :: digits) rest all ends 0 (Nat.zero_le _)

theorem splitDigits (data : Bytes) :
    ∃ digits rest, data = digits ++ rest ∧ (∀ byte ∈ digits, isDigit byte) ∧ NoDigitNext rest := by
  refine ⟨data.takeWhile fun byte => isDigit byte, data.dropWhile fun byte => isDigit byte,
    List.takeWhile_append_dropWhile.symm, ?_, ?_⟩
  · intro byte member
    simpa using List.mem_takeWhile_imp member
  · intro byte more split digit
    have stops := List.head?_dropWhile_not (fun byte => decide (isDigit byte)) data
    rw [split] at stops
    simp [digit] at stops

/-- A size that was read is the value of the digits in front. -/
theorem getSize_some {max value : Nat} {data rest : Bytes}
    (read : getSize max data = some (value, rest)) :
    ∃ digits, data = digits ++ rest ∧ IsNumber digits ∧ NoDigitNext rest ∧
      value = decimal digits ∧ value ≤ max := by
  obtain ⟨digits, tail, rfl, all, ends⟩ := splitDigits data
  by_cases empty : digits = []
  · subst empty
    cases tail with
    | nil => cases read
    | cons byte more =>
        rw [List.nil_append, getSize, if_neg (ends byte more rfl)] at read
        cases read
  · rw [getSize_append max ⟨empty, all⟩ ends] at read
    split at read
    · next within =>
        cases read
        exact ⟨digits, rfl, ⟨empty, all⟩, ends, rfl, within⟩
    · cases read

end Numbers

section Grammar

theorem IsNumber.not_dot {part : Bytes} (number : IsNumber part) : (46 : UInt8) ∉ part := by
  intro member
  exact absurd (number.2 46 member) (by decide)

theorem noDigitNext_dot (rest : Bytes) : NoDigitNext (46 :: rest) := by
  rintro byte more ⟨⟩
  decide

theorem noDigitNext_nil : NoDigitNext [] := by
  rintro byte more ⟨⟩

theorem countComponents_dotted {parts : List Bytes} (numbers : ∀ part ∈ parts, IsNumber part) :
    parts ≠ [] → ∀ count, countComponents false count ([46].intercalate parts) + 1 =
      count + parts.length := by
  induction parts with
  | nil => exact fun nonempty => absurd rfl nonempty
  | cons part parts ih =>
      intro _ count
      obtain ⟨nonempty, digits⟩ := numbers part List.mem_cons_self
      have later := ih fun other member => numbers other (List.mem_cons_of_mem _ member)
      cases parts with
      | nil =>
          have counted := countComponents_digits count part [] digits false nonempty
          rw [List.append_nil] at counted
          rw [List.intercalate_singleton, counted]
          rfl
      | cons next parts =>
          rw [List.intercalate_cons_cons, List.append_assoc, List.singleton_append,
            countComponents_digits count part _ digits false nonempty, countComponents, if_pos rfl,
            if_pos rfl, later (List.cons_ne_nil _ _) (count + 1)]
          simp only [List.length_cons]
          omega

theorem length_dotted {parts : List Bytes} (numbers : ∀ part ∈ parts, IsNumber part) :
    parts.length ≤ ([46].intercalate parts).length := by
  induction parts with
  | nil => exact Nat.zero_le _
  | cons part parts ih =>
      have long := List.length_pos_iff.mpr (numbers part List.mem_cons_self).1
      have later := ih fun other member => numbers other (List.mem_cons_of_mem _ member)
      cases parts with
      | nil =>
          rw [List.intercalate_singleton]
          exact long
      | cons next parts =>
          rw [List.intercalate_cons_cons, List.length_append, List.length_append]
          simp only [List.length_cons, List.length_nil] at later ⊢
          omega

theorem parseComponents_dotted {parts : List Bytes} (numbers : ∀ part ∈ parts, IsNumber part) :
    ∀ fuel, parts ≠ [] → parts.length ≤ fuel →
      parseComponents fuel ([46].intercalate parts) =
        if WithinLimit (parts.map decimal) then some (parts.map decimal) else none := by
  induction parts with
  | nil => exact fun _ nonempty => absurd rfl nonempty
  | cons part parts ih =>
      intro fuel _ enough
      rw [List.length_cons] at enough
      obtain ⟨fuel, rfl⟩ : ∃ less, fuel = less + 1 := ⟨fuel - 1, by omega⟩
      have number := numbers part List.mem_cons_self
      have later := ih (fun other member => numbers other (List.mem_cons_of_mem _ member)) fuel
      cases parts with
      | nil =>
          have read := getSize_append idLimit number noDigitNext_nil
          rw [List.append_nil] at read
          rw [List.intercalate_singleton, parseComponents, read]
          by_cases small : decimal part ≤ idLimit
          · simp [small, WithinLimit]
          · simp [small, WithinLimit]
      | cons next parts =>
          have others := later (List.cons_ne_nil _ _) (by omega)
          rw [List.intercalate_cons_cons, List.append_assoc, List.singleton_append, parseComponents,
            getSize_append idLimit number (noDigitNext_dot _), List.map_cons]
          by_cases small : decimal part ≤ idLimit
          · rw [if_pos small]
            dsimp only
            rw [if_pos rfl, others]
            by_cases within : WithinLimit ((next :: parts).map decimal)
            · rw [if_pos within, if_pos (withinLimit_cons.mpr ⟨small, within⟩)]
              rfl
            · rw [if_neg within, if_neg fun all => within (withinLimit_cons.mp all).2]
              rfl
          · rw [if_neg small, if_neg fun all => small (withinLimit_cons.mp all).1]

/-- The text of an id is a sequence of numbers with dots between them. -/
theorem parseId_dotted {data : Bytes} {parts : List Bytes} (dotted : Dotted data parts) :
    parseId data = if WithinLimit (parts.map decimal) then some (parts.map decimal) else none := by
  obtain ⟨nonempty, rfl, numbers⟩ := dotted
  have counted := countComponents_dotted numbers nonempty 1
  have positive := List.length_pos_iff.mpr nonempty
  have length := length_dotted numbers
  rw [parseId, countIdComponents, if_neg (by omega),
    parseComponents_dotted numbers _ nonempty (by omega)]

theorem parseComponents_some (fuel : Nat) :
    ∀ {data : Bytes} {id : NodeId}, parseComponents fuel data = some id →
      ∃ parts, Dotted data parts ∧ id = parts.map decimal := by
  induction fuel with
  | zero =>
      intro data id parsed
      cases parsed
  | succ fuel ih =>
      intro data id parsed
      rw [parseComponents] at parsed
      split at parsed
      · cases parsed
      · next value read =>
          cases parsed
          obtain ⟨digits, rfl, number, -, rfl, -⟩ := getSize_some read
          refine ⟨[digits], ⟨by simp, by simp, ?_⟩, rfl⟩
          intro part member
          rw [List.mem_singleton.mp member]
          exact number
      · next value byte rest read =>
          split at parsed
          · next isDot =>
              obtain ⟨others, found, rfl⟩ := Option.map_eq_some_iff.mp parsed
              obtain ⟨digits, rfl, number, -, rfl, -⟩ := getSize_some read
              obtain ⟨parts, ⟨nonempty, rfl, numbers⟩, rfl⟩ := ih found
              refine ⟨digits :: parts, ⟨by simp, ?_, ?_⟩, rfl⟩
              · rw [isDot, List.intercalate_cons_of_ne_nil nonempty, List.append_assoc]
                rfl
              · exact List.forall_mem_cons.mpr ⟨number, numbers⟩
          · cases parsed

theorem parseId_accepts (data : Bytes) (id : NodeId) :
    parseId data = some id ↔
      ∃ parts, Dotted data parts ∧ id = parts.map decimal ∧ WithinLimit id := by
  constructor
  · intro parsed
    have read := parsed
    rw [parseId] at read
    split at read
    · cases read
    · obtain ⟨parts, dotted, rfl⟩ := parseComponents_some _ read
      rw [parseId_dotted dotted] at parsed
      split at parsed
      · next within => exact ⟨parts, dotted, rfl, within⟩
      · cases parsed
  · rintro ⟨parts, dotted, rfl, within⟩
    rw [parseId_dotted dotted, if_pos within]

theorem Dotted.unique {data : Bytes} {parts others : List Bytes} (one : Dotted data parts)
    (two : Dotted data others) : parts = others := by
  have first := List.splitOn_intercalate 46 (fun part member => (one.2.2 part member).not_dot) one.1
  have second := List.splitOn_intercalate 46 (fun part member => (two.2.2 part member).not_dot) two.1
  rw [← first, ← second, ← one.2.1, ← two.2.1]

end Grammar

section Writing

theorem unparseId_eq (id : NodeId) : unparseId id = [46].intercalate (id.map putSize) := by
  induction id with
  | nil => rfl
  | cons value rest ih =>
      cases rest with
      | nil => simp [unparseId]
      | cons next rest =>
          rw [unparseId, ih, List.map_cons, List.map_cons, List.map_cons, List.intercalate_cons_cons,
            List.append_assoc]
          · rfl
          · simp

theorem isNumber_putSize (value : Nat) : IsNumber (putSize value) :=
  ⟨putSize_ne_nil value, isDigit_putDigits _ value⟩

theorem putDigits_fuel (fuel : Nat) : ∀ value, value < fuel → putDigits fuel value = putSize value := by
  induction fuel using Nat.strong_induction_on with
  | _ fuel ih =>
      intro value less
      obtain ⟨fuel, rfl⟩ : ∃ smaller, fuel = smaller + 1 := ⟨fuel - 1, by omega⟩
      rw [putSize, putDigits, putDigits]
      split
      · next more =>
          rw [ih fuel (by omega) (value / 10) (by omega)]
          by_cases same : value = fuel
          · rw [same, ih fuel (by omega) (fuel / 10) (by omega)]
          · rw [ih value (by omega) (value / 10) (by omega)]
      · rfl

theorem putSize_step (value : Nat) {digit : Nat} (small : digit < 10) (positive : 0 < value) :
    putSize (value * 10 + digit) = putSize value ++ [digitByte digit] := by
  have quotient : (value * 10 + digit) / 10 = value := by omega
  have remainder : (value * 10 + digit) % 10 = digit := by omega
  rw [putSize, putDigits, quotient, remainder, if_pos positive,
    putDigits_fuel _ value (by omega)]

theorem digitByte_digit {byte : UInt8} (digit : isDigit byte) : digitByte (byte.toNat - 48) = byte := by
  obtain ⟨low, high⟩ := digit
  apply UInt8.toNat_inj.mp
  rw [digitByte_toNat (by omega)]
  omega

theorem decimalFrom_append (value : Nat) (digits : Bytes) (byte : UInt8) :
    decimalFrom value (digits ++ [byte]) = decimalFrom value digits * 10 + (byte.toNat - 48) := by
  rw [decimalFrom, decimalFrom, List.foldl_append]
  rfl

/-- Digits without a redundant zero are those that the value is written with. The induction takes
the last digit off. -/
theorem putSize_decimal (digits : Bytes) :
    IsNumber digits → ¬ RedundantZero digits →
      putSize (decimal digits) = digits ∧ (decimal digits = 0 → digits = [48]) := by
  induction digits using List.reverseRecOn with
  | nil => exact fun number => absurd rfl number.1
  | append_singleton digits byte ih =>
      intro number plain
      have digit : isDigit byte := number.2 byte (by simp)
      have value : decimal (digits ++ [byte]) = decimal digits * 10 + (byte.toNat - 48) :=
        decimalFrom_append 0 digits byte
      have small : byte.toNat - 48 < 10 := by
        obtain ⟨low, high⟩ := digit
        omega
      rw [value]
      by_cases empty : digits = []
      · subst empty
        have single : decimal [] * 10 + (byte.toNat - 48) = byte.toNat - 48 := by
          simp [decimal, decimalFrom]
        rw [single]
        constructor
        · rw [putSize, putDigits, if_neg (by omega), Nat.mod_eq_of_lt small, digitByte_digit digit]
        · intro zero
          have isZero : digitByte 0 = byte := by rw [← zero, digitByte_digit digit]
          rw [← isZero]
          rfl
      · have numbers : IsNumber digits := ⟨empty, fun other member => number.2 other (by simp [member])⟩
        obtain ⟨first, rest, split⟩ := List.exists_cons_of_ne_nil empty
        have notZero : first ≠ 48 := by
          rintro rfl
          exact plain ⟨rest ++ [byte], by simp, by rw [split]; rfl⟩
        have shorter : ¬ RedundantZero digits := by
          rintro ⟨others, -, zero⟩
          rw [split] at zero
          exact notZero (List.cons.inj zero).1
        obtain ⟨written, zero⟩ := ih numbers shorter
        have positive : 0 < decimal digits := by
          apply Nat.pos_of_ne_zero
          intro isZero
          rw [zero isZero] at split
          exact notZero (List.cons.inj split).1.symm
        constructor
        · rw [putSize_step _ small positive, written, digitByte_digit digit]
        · intro isZero
          omega

theorem putSize_head_zero (value : Nat) : (putSize value).head? = some 48 → value = 0 := by
  induction value using Nat.strong_induction_on with
  | _ value ih =>
      intro zero
      have remainder : value % 10 < 10 := Nat.mod_lt _ (by decide)
      by_cases more : 0 < value / 10
      · have whole : value / 10 * 10 + value % 10 = value := by omega
        have step := putSize_step (value / 10) remainder more
        rw [whole] at step
        rw [step, List.head?_append_of_ne_nil _ (putSize_ne_nil _)] at zero
        have shorter := ih (value / 10) (by omega) zero
        omega
      · rw [putSize, putDigits, if_neg more] at zero
        have isZero : (digitByte (value % 10)).toNat = 48 := congrArg UInt8.toNat (Option.some.inj zero)
        rw [digitByte_toNat remainder] at isZero
        omega

/-- No number is written with a redundant zero. -/
theorem putSize_plain (value : Nat) : ¬ RedundantZero (putSize value) := by
  rintro ⟨rest, nonempty, zero⟩
  have isZero := putSize_head_zero value (by rw [zero]; rfl)
  subst isZero
  exact nonempty (List.cons.inj zero).2.symm

theorem dotted_unparseId {id : NodeId} (nonempty : id ≠ []) : Dotted (unparseId id) (id.map putSize) := by
  refine ⟨by simpa using nonempty, unparseId_eq id, ?_⟩
  intro part member
  obtain ⟨value, -, rfl⟩ := List.mem_map.mp member
  exact isNumber_putSize value

end Writing

/-- Ids are read from exactly the documented texts, and are written without redundant zeros. -/
theorem parseId_readsIds : ReadsIds parseId unparseId where
  accepts := parseId_accepts
  roundTrip := by
    intro id nonempty within
    rw [parseId_unparseId id nonempty, if_pos within]
  canonical := by
    intro data parts id dotted parsed
    obtain ⟨others, same, rfl, within⟩ := (parseId_accepts data id).mp parsed
    have equal := dotted.unique same
    subst equal
    constructor
    · intro written part member
      have nonempty : parts.map decimal ≠ [] := by simpa using dotted.1
      have rewritten := dotted_unparseId nonempty
      rw [written] at rewritten
      have parts' := dotted.unique rewritten
      rw [parts'] at member
      obtain ⟨value, -, rfl⟩ := List.mem_map.mp member
      exact putSize_plain value
    · intro plain
      have same : (parts.map decimal).map putSize = parts := by
        rw [List.map_map]
        nth_rewrite 2 [← List.map_id parts]
        apply List.map_congr_left
        intro part member
        exact (putSize_decimal part (dotted.2.2 part member) (plain part member)).1
      rw [unparseId_eq, same]
      exact dotted.2.1.symm

end Subversion.Fs
