/-
This file models how strings lose the whitespace at both ends, down to the addresses that are read.
-/

import Mathlib.Data.List.DropRight
import Subversion.Lib.ByteMemory
import Subversion.Subr.Numbers

namespace Subversion.Subr

open Delta ByteMemory

/-- The memory is that of the whole process. -/
structure SvnString where
  memory : Nat → UInt8
  data : UInt64
  len : UInt64

structure SvnStringbuf where
  memory : Nat → UInt8
  data : UInt64
  len : UInt64
  blocksize : UInt64

/-- The place of a string, with the terminator behind it. -/
structure Extent where
  data : UInt64
  len : UInt64

def Extent.Contains (extent : Extent) (address : UInt64) : Prop :=
  0 < address.toNat ∧ extent.data.toNat ≤ address.toNat ∧
    address.toNat ≤ extent.data.toNat + extent.len.toNat

instance (extent : Extent) (address : UInt64) : Decidable (extent.Contains address) :=
  inferInstanceAs (Decidable (_ ∧ _ ∧ _))

/-- The answer has no other value than `-1` for whitespace. -/
def firstNonWhitespaceFrom (memory : Nat → UInt8) (extent : Extent) (data len i : UInt64) :
    Except SvnError UInt64 :=
  if i < len then
    if extent.Contains (data + i) then
      if ¬ isSpace (memory (data + i).toNat) then .ok i
      else firstNonWhitespaceFrom memory extent data len (i + 1)
    else .error SvnError.undefinedBehaviour
  else .ok (-1)
termination_by len.toNat - i.toNat
decreasing_by
  have inside : i.toNat < len.toNat := UInt64.lt_iff_toNat_lt.mp (by assumption)
  have bound := len.toNat_lt
  rw [UInt64.toNat_add, UInt64.toNat_one]
  omega

/-- The index has no sign, so that `i >= 0` does not end the loop. -/
def lastNonWhitespaceFrom (memory : Nat → UInt8) (extent : Extent) (data i : UInt64) :
    Except SvnError UInt64 :=
  if extent.Contains (data + i) then
    if ¬ isSpace (memory (data + i).toNat) then .ok i
    else lastNonWhitespaceFrom memory extent data (i - 1)
  else .error SvnError.undefinedBehaviour
termination_by (data + i).toNat
decreasing_by
  have inside : 0 < (data + i).toNat := And.left (by assumption)
  have bound := (data + i).toNat_lt
  rw [UInt64.toNat_add, UInt64.toNat_sub, UInt64.toNat_one]
  rw [UInt64.toNat_add] at inside bound ⊢
  omega

def svnStringFirstNonWhitespace (str : SvnString) : Except SvnError UInt64 :=
  firstNonWhitespaceFrom str.memory ⟨str.data, str.len⟩ str.data str.len 0

/-- An access outside of the string has no meaning. -/
def svnStringStripWhitespace (str : SvnString) : Except SvnError SvnString :=
  svnStringFirstNonWhitespace str >>= fun offset =>
    lastNonWhitespaceFrom str.memory ⟨str.data, str.len⟩ (str.data + offset) (str.len - offset - 1) >>=
      fun i => .ok { str with data := str.data + offset, len := i + 1 }

def svnStringbufFirstNonWhitespace (str : SvnStringbuf) : Except SvnError UInt64 :=
  firstNonWhitespaceFrom str.memory ⟨str.data, str.len⟩ str.data str.len 0

/-- A buffer gets a new terminator. -/
def svnStringbufStripWhitespace (str : SvnStringbuf) : Except SvnError SvnStringbuf :=
  svnStringbufFirstNonWhitespace str >>= fun offset =>
    lastNonWhitespaceFrom str.memory ⟨str.data, str.len⟩ (str.data + offset) (str.len - offset - 1) >>=
      fun i =>
        if (⟨str.data, str.len⟩ : Extent).Contains (str.data + offset + (i + 1)) then
          .ok ⟨Function.update str.memory (str.data + offset + (i + 1)).toNat 0, str.data + offset, i + 1,
            str.blocksize - offset⟩
        else .error SvnError.undefinedBehaviour

def SvnString.text (str : SvnString) : Bytes := contents str.memory str.data.toNat str.len.toNat

def SvnStringbuf.text (str : SvnStringbuf) : Bytes := contents str.memory str.data.toNat str.len.toNat

structure SvnString.Valid (str : SvnString) : Prop where
  notNull : 0 < str.data.toNat
  fits : str.data.toNat + str.len.toNat < 2 ^ 64

structure SvnStringbuf.Valid (str : SvnStringbuf) : Prop where
  notNull : 0 < str.data.toNat
  room : str.len.toNat < str.blocksize.toNat
  fits : str.data.toNat + str.blocksize.toNat ≤ 2 ^ 64
  terminated : str.memory (str.data.toNat + str.len.toNat) = 0

def trimmed (text : Bytes) : Bytes := (text.dropWhile (isSpace ·)).rdropWhile (isSpace ·)

/-- Whitespace alone cannot be stripped. -/
def stripWhitespace (text : Bytes) : Except SvnError Bytes :=
  if ∃ byte ∈ text, ¬ isSpace byte then .ok (trimmed text) else .error SvnError.undefinedBehaviour

section Scans

variable {memory : Nat → UInt8} {extent : Extent} {data len : UInt64}

theorem toNat_address {place : Nat} (small : data.toNat + place < 2 ^ 64) :
    (data + UInt64.ofNat place).toNat = data.toNat + place := by
  rw [UInt64.toNat_add, UInt64.toNat_ofNat', Nat.mod_eq_of_lt (show place < 2 ^ 64 by omega),
    Nat.mod_eq_of_lt small]

theorem ofNat_lt_iff {place : Nat} (small : place < 2 ^ 64) :
    UInt64.ofNat place < len ↔ place < len.toNat := by
  rw [UInt64.lt_iff_toNat_lt, UInt64.toNat_ofNat', Nat.mod_eq_of_lt small]

theorem ofNat_succ (place : Nat) : UInt64.ofNat place + 1 = UInt64.ofNat (place + 1) := by
  rw [UInt64.ofNat_add]
  rfl

theorem ofNat_pred (place : Nat) : UInt64.ofNat (place + 1) - 1 = UInt64.ofNat place := by
  rw [← ofNat_succ, UInt64.add_sub_cancel]

/-- What the first loop finds, counted from the place where it is. -/
theorem firstNonWhitespaceFrom_found
    (inside : ∀ place, place < len.toNat → extent.Contains (data + UInt64.ofNat place))
    (fits : data.toNat + len.toNat < 2 ^ 64) (rest : Nat) :
    ∀ place, place + rest = len.toNat →
      (∃ byte ∈ contents memory (data.toNat + place) rest, ¬ isSpace byte) →
      ∃ found, firstNonWhitespaceFrom memory extent data len (UInt64.ofNat place) =
          .ok (UInt64.ofNat found) ∧ found < len.toNat ∧
        contents memory (data.toNat + found) (len.toNat - found) =
          (contents memory (data.toNat + place) rest).dropWhile (isSpace ·) := by
  induction rest with
  | zero =>
      rintro place _ ⟨byte, member, _⟩
      cases member
  | succ rest ih =>
      intro place total some
      rw [firstNonWhitespaceFrom, if_pos ((ofNat_lt_iff (by omega)).mpr (by omega)),
        if_pos (inside place (by omega)), toNat_address (by omega)]
      by_cases space : isSpace (memory (data.toNat + place))
      · rw [if_neg (not_not.mpr space), contents, List.dropWhile_cons, if_pos (decide_eq_true space),
          ofNat_succ]
        refine ih (place + 1) (by omega) ?_
        obtain ⟨byte, member, other⟩ := some
        obtain rfl | later := List.mem_cons.mp member
        · exact absurd space other
        · exact ⟨byte, later, other⟩
      · rw [if_pos space]
        refine ⟨place, rfl, by omega, ?_⟩
        rw [show len.toNat - place = rest + 1 by omega, contents, List.dropWhile_cons,
          if_neg (by rw [decide_eq_true_eq]; exact space)]

theorem firstNonWhitespaceFrom_space
    (inside : ∀ place, place < len.toNat → extent.Contains (data + UInt64.ofNat place))
    (fits : data.toNat + len.toNat < 2 ^ 64) (rest : Nat) :
    ∀ place, place + rest = len.toNat →
      (∀ byte ∈ contents memory (data.toNat + place) rest, isSpace byte) →
      firstNonWhitespaceFrom memory extent data len (UInt64.ofNat place) = .ok (-1) := by
  induction rest with
  | zero =>
      intro place total _
      rw [firstNonWhitespaceFrom, if_neg (by rw [ofNat_lt_iff (by omega)]; omega)]
  | succ rest ih =>
      intro place total spaces
      rw [contents, List.forall_mem_cons] at spaces
      rw [firstNonWhitespaceFrom, if_pos ((ofNat_lt_iff (by omega)).mpr (by omega)),
        if_pos (inside place (by omega)), toNat_address (by omega), if_neg (not_not.mpr spaces.1),
        ofNat_succ]
      exact ih (place + 1) (by omega) spaces.2

theorem contents_last (memory : Nat → UInt8) (start last : Nat) :
    contents memory start (last + 1) = contents memory start last ++ [memory (start + last)] :=
  contents_add memory last 1 start

/-- The second loop stops at the last byte of the trimmed text. -/
theorem lastNonWhitespaceFrom_found (last : Nat) :
    data.toNat + last < 2 ^ 64 →
      (∀ place, place ≤ last → extent.Contains (data + UInt64.ofNat place)) →
      (∃ byte ∈ contents memory data.toNat (last + 1), ¬ isSpace byte) →
      ∃ found, lastNonWhitespaceFrom memory extent data (UInt64.ofNat last) = .ok (UInt64.ofNat found) ∧
        found ≤ last ∧ contents memory data.toNat (found + 1) =
          (contents memory data.toNat (last + 1)).rdropWhile (isSpace ·) := by
  induction last with
  | zero =>
      intro fits inside some
      obtain ⟨byte, member, other⟩ := some
      obtain rfl := List.mem_singleton.mp member
      rw [lastNonWhitespaceFrom, if_pos (inside 0 le_rfl), toNat_address fits, Nat.add_zero, if_pos other]
      refine ⟨0, rfl, le_rfl, ?_⟩
      rw [contents_last, List.rdropWhile_concat, if_neg (by rw [decide_eq_true_eq]; exact other)]
  | succ last ih =>
      intro fits inside some
      rw [lastNonWhitespaceFrom, if_pos (inside (last + 1) le_rfl), toNat_address fits]
      rw [contents_last] at some
      rw [contents_last memory data.toNat (last + 1), List.rdropWhile_concat]
      by_cases space : isSpace (memory (data.toNat + (last + 1)))
      · obtain ⟨byte, member, other⟩ := some
        obtain earlier | last := List.mem_append.mp member
        · rw [if_neg (not_not.mpr space), if_pos (decide_eq_true space), ofNat_pred]
          obtain ⟨found, stops, below, text⟩ :=
            ih (by omega) (fun place below => inside place (by omega)) ⟨byte, earlier, other⟩
          exact ⟨found, stops, by omega, text⟩
        · obtain rfl := List.mem_singleton.mp last
          exact absurd space other
      · rw [if_pos space, if_neg (by rw [decide_eq_true_eq]; exact space)]
        exact ⟨last + 1, rfl, le_rfl, contents_last memory data.toNat (last + 1)⟩

/-- Where all bytes are whitespace, the loop comes to an address in front of the string. -/
theorem lastNonWhitespaceFrom_space (before : ¬ extent.Contains data) (last : Nat) :
    data.toNat + last < 2 ^ 64 →
      (∀ byte ∈ contents memory (data.toNat + 1) last, isSpace byte) →
      lastNonWhitespaceFrom memory extent data (UInt64.ofNat last) = .error SvnError.undefinedBehaviour := by
  induction last with
  | zero =>
      intro _ _
      rw [lastNonWhitespaceFrom, if_neg]
      intro inside
      rw [show UInt64.ofNat 0 = 0 from rfl, UInt64.add_zero] at inside
      exact before inside
  | succ last ih =>
      intro fits spaces
      rw [contents_last, List.forall_mem_append, List.forall_mem_singleton] at spaces
      rw [lastNonWhitespaceFrom]
      split
      · rw [toNat_address fits, if_neg, ofNat_pred]
        · exact ih (by omega) spaces.1
        · rw [not_not, ← Nat.add_assoc, Nat.add_right_comm]
          exact spaces.2
      · rfl

theorem contains_address {place : Nat} (notNull : 0 < data.toNat) (fits : data.toNat + len.toNat < 2 ^ 64)
    (below : place ≤ len.toNat) : (⟨data, len⟩ : Extent).Contains (data + UInt64.ofNat place) := by
  rw [Extent.Contains, toNat_address (by omega)]
  exact ⟨by omega, by simp only; omega, by simp only; omega⟩

theorem exists_mem_dropWhile {text : Bytes} (some : ∃ byte ∈ text, ¬ isSpace byte) :
    ∃ byte ∈ text.dropWhile (isSpace ·), ¬ isSpace byte := by
  obtain ⟨byte, member, other⟩ := some
  rw [← List.takeWhile_append_dropWhile (p := (isSpace ·)) (l := text)] at member
  obtain early | late := List.mem_append.mp member
  · have space := List.mem_takeWhile_imp early
    exact absurd (of_decide_eq_true space) other
  · exact ⟨byte, late, other⟩

/-- The two loops find both ends of the trimmed text. -/
theorem scans_found (notNull : 0 < data.toNat) (fits : data.toNat + len.toNat < 2 ^ 64)
    (some : ∃ byte ∈ contents memory data.toNat len.toNat, ¬ isSpace byte) :
    ∃ front last, firstNonWhitespaceFrom memory ⟨data, len⟩ data len 0 = .ok (UInt64.ofNat front) ∧
      lastNonWhitespaceFrom memory ⟨data, len⟩ (data + UInt64.ofNat front) (len - UInt64.ofNat front - 1) =
        .ok (UInt64.ofNat last) ∧
      front + last < len.toNat ∧
      contents memory (data.toNat + front) (last + 1) = trimmed (contents memory data.toNat len.toNat) := by
  have bound := len.toNat_lt
  have inside : ∀ place, place < len.toNat →
      (⟨data, len⟩ : Extent).Contains (data + UInt64.ofNat place) :=
    fun place below => contains_address notNull fits (Nat.le_of_lt below)
  obtain ⟨front, first, below, dropped⟩ :=
    @firstNonWhitespaceFrom_found memory _ data len inside fits len.toNat 0 (Nat.zero_add _) some
  obtain ⟨rest, length⟩ := Nat.exists_eq_add_of_lt below
  have remaining : len.toNat - front = rest + 1 := by omega
  have index : len - UInt64.ofNat front - 1 = UInt64.ofNat rest := by
    rw [← UInt64.ofNat_toNat (x := len), length, show front + rest + 1 = rest + 1 + front by omega,
      UInt64.ofNat_add, UInt64.add_sub_cancel, ofNat_pred]
  have address : (data + UInt64.ofNat front).toNat = data.toNat + front := toNat_address (by omega)
  have left := exists_mem_dropWhile some
  rw [Nat.add_zero] at dropped
  rw [← dropped, remaining, ← address] at left
  obtain ⟨last, final, early, text⟩ := @lastNonWhitespaceFrom_found memory ⟨data, len⟩ _ rest
    (by omega) (fun place small => by
      rw [UInt64.add_assoc, ← UInt64.ofNat_add]
      exact inside (front + place) (by omega)) left
  refine ⟨front, last, first, ?_, by omega, ?_⟩
  · rw [index, final]
  · rw [trimmed, ← dropped, remaining, ← address, text]

theorem scans_space (notNull : 0 < data.toNat) (fits : data.toNat + len.toNat < 2 ^ 64)
    (spaces : ∀ byte ∈ contents memory data.toNat len.toNat, isSpace byte) :
    firstNonWhitespaceFrom memory ⟨data, len⟩ data len 0 = .ok (-1) ∧
      lastNonWhitespaceFrom memory ⟨data, len⟩ (data + -1) (len - -1 - 1) =
        .error SvnError.undefinedBehaviour := by
  have bound := data.toNat_lt
  have before : (data + -1).toNat = data.toNat - 1 := by
    rw [UInt64.toNat_add, show (-1 : UInt64).toNat = 2 ^ 64 - 1 from rfl]
    omega
  refine ⟨?_, ?_⟩
  · exact firstNonWhitespaceFrom_space
      (fun place below => contains_address notNull fits (Nat.le_of_lt below)) fits len.toNat 0
      (Nat.zero_add _) spaces
  · have index : len - -1 - 1 = UInt64.ofNat len.toNat := by
      rw [UInt64.ofNat_toNat, UInt64.sub_neg, UInt64.add_sub_cancel]
    rw [index]
    refine lastNonWhitespaceFrom_space ?_ len.toNat (by omega) ?_
    · rintro ⟨_, above, _⟩
      rw [before] at above
      simp only at above
      omega
    · rw [before, Nat.sub_add_cancel notNull]
      exact spaces

end Scans

section Strings

/-- The text is stripped, and the fields still describe a string in the same block. -/
structure SvnString.Stripped (str result : SvnString) : Prop where
  text : result.text = trimmed str.text
  valid : result.Valid
  memory : result.memory = str.memory

structure SvnStringbuf.Stripped (str result : SvnStringbuf) : Prop where
  text : result.text = trimmed str.text
  valid : result.Valid
  block : result.data.toNat + result.blocksize.toNat = str.data.toNat + str.blocksize.toNat

theorem svnStringStripWhitespace_stripped {str : SvnString} (valid : str.Valid)
    (some : ∃ byte ∈ str.text, ¬ isSpace byte) :
    ∃ result, svnStringStripWhitespace str = .ok result ∧ str.Stripped result := by
  obtain ⟨front, last, first, final, inside, text⟩ := scans_found valid.notNull valid.fits some
  have fits := valid.fits
  have address : (str.data + UInt64.ofNat front).toNat = str.data.toNat + front :=
    toNat_address (by omega)
  have length : (UInt64.ofNat last + 1).toNat = last + 1 := by
    rw [ofNat_succ]
    exact UInt64.toNat_ofNat_of_lt' (by rw [UInt64.size]; omega)
  refine ⟨⟨str.memory, str.data + UInt64.ofNat front, UInt64.ofNat last + 1⟩, ?_, ?_, ?_, rfl⟩
  · rw [svnStringStripWhitespace, svnStringFirstNonWhitespace, first, ok_bind, final, ok_bind]
  · rw [SvnString.text, address, length, text]
    rfl
  · exact ⟨by rw [address]; exact Nat.add_pos_left valid.notNull _, by rw [address, length]; omega⟩

theorem svnStringStripWhitespace_space {str : SvnString} (valid : str.Valid)
    (spaces : ∀ byte ∈ str.text, isSpace byte) :
    svnStringStripWhitespace str = .error SvnError.undefinedBehaviour := by
  obtain ⟨first, final⟩ := scans_space valid.notNull valid.fits spaces
  rw [svnStringStripWhitespace, svnStringFirstNonWhitespace, first, ok_bind, final, error_bind]

theorem svnStringbufStripWhitespace_stripped {str : SvnStringbuf} (valid : str.Valid)
    (some : ∃ byte ∈ str.text, ¬ isSpace byte) :
    ∃ result, svnStringbufStripWhitespace str = .ok result ∧ str.Stripped result := by
  have room := valid.room
  have fits := valid.fits
  obtain ⟨front, last, first, final, inside, text⟩ :=
    scans_found valid.notNull (by omega : str.data.toNat + str.len.toNat < 2 ^ 64) some
  have address : (str.data + UInt64.ofNat front).toNat = str.data.toNat + front :=
    toNat_address (by omega)
  have length : (UInt64.ofNat last + 1).toNat = last + 1 := by
    rw [ofNat_succ]
    exact UInt64.toNat_ofNat_of_lt' (by rw [UInt64.size]; omega)
  have size : (str.blocksize - UInt64.ofNat front).toNat = str.blocksize.toNat - front := by
    have small : (UInt64.ofNat front).toNat = front :=
      UInt64.toNat_ofNat_of_lt' (by rw [UInt64.size]; omega)
    rw [UInt64.toNat_sub_of_le _ _ (by rw [UInt64.le_iff_toNat_le]; omega), small]
  have closing : (str.data + UInt64.ofNat front + (UInt64.ofNat last + 1)).toNat =
      str.data.toNat + front + (last + 1) := by
    rw [ofNat_succ, toNat_address (by rw [address]; omega), address]
  refine ⟨⟨Function.update str.memory (str.data.toNat + front + (last + 1)) 0,
    str.data + UInt64.ofNat front, UInt64.ofNat last + 1, str.blocksize - UInt64.ofNat front⟩, ?_, ?_, ?_, ?_⟩
  · rw [svnStringbufStripWhitespace, svnStringbufFirstNonWhitespace, first, ok_bind, final, ok_bind,
      if_pos ⟨by rw [closing]; omega, by rw [closing]; simp only; omega, by rw [closing]; simp only; omega⟩,
      closing]
  · rw [SvnStringbuf.text, address, length, SvnStringbuf.text, ← text]
    exact contents_congr (last + 1) fun place _ below => Function.update_of_ne (by omega) _ _
  · have notNull := valid.notNull
    exact ⟨by rw [address]; omega, by rw [length, size]; omega, by rw [address, size]; omega, by
      rw [address, length]
      exact Function.update_self _ _ _⟩
  · rw [address, size]
    omega

theorem svnStringbufStripWhitespace_space {str : SvnStringbuf} (valid : str.Valid)
    (spaces : ∀ byte ∈ str.text, isSpace byte) :
    svnStringbufStripWhitespace str = .error SvnError.undefinedBehaviour := by
  have room := valid.room
  have fits := valid.fits
  obtain ⟨first, final⟩ :=
    scans_space valid.notNull (by omega : str.data.toNat + str.len.toNat < 2 ^ 64) spaces
  rw [svnStringbufStripWhitespace, svnStringbufFirstNonWhitespace, first, ok_bind, final, error_bind]

/-- On texts, stripping is what the callers of it need to know. -/
theorem svnStringbufStripWhitespace_text {str : SvnStringbuf} (valid : str.Valid) :
    (svnStringbufStripWhitespace str).map SvnStringbuf.text = stripWhitespace str.text := by
  rw [stripWhitespace]
  split
  case isTrue some =>
    obtain ⟨result, done, stripped⟩ := svnStringbufStripWhitespace_stripped valid some
    rw [done, ← stripped.text]
    rfl
  case isFalse none =>
    rw [svnStringbufStripWhitespace_space valid]
    · rfl
    · intro byte member
      by_contra other
      exact none ⟨byte, member, other⟩

/-- Stripping works where something is left. -/
theorem stripWhitespace_iff {str : SvnString} {buf : SvnStringbuf} (valid : str.Valid)
    (validBuf : buf.Valid) :
    ((∃ result, svnStringStripWhitespace str = .ok result ∧ str.Stripped result) ↔
      ∃ byte ∈ str.text, ¬ isSpace byte) ∧
    ((∃ result, svnStringbufStripWhitespace buf = .ok result ∧ buf.Stripped result) ↔
      ∃ byte ∈ buf.text, ¬ isSpace byte) := by
  refine ⟨⟨?_, svnStringStripWhitespace_stripped valid⟩,
    ⟨?_, svnStringbufStripWhitespace_stripped validBuf⟩⟩
  · rintro ⟨result, done, _⟩
    by_contra none
    rw [svnStringStripWhitespace_space valid (fun byte member => by
      by_contra other
      exact none ⟨byte, member, other⟩)] at done
    cases done
  · rintro ⟨result, done, _⟩
    by_contra none
    rw [svnStringbufStripWhitespace_space validBuf (fun byte member => by
      by_contra other
      exact none ⟨byte, member, other⟩)] at done
    cases done

/-- The byte in front of an empty string is read. -/
theorem stripWhitespace_empty :
    ∃ (str : SvnString) (buf : SvnStringbuf), str.Valid ∧ buf.Valid ∧ str.text = [] ∧ buf.text = [] ∧
      (¬ ∃ result, svnStringStripWhitespace str = .ok result ∧ str.Stripped result) ∧
        ¬ ∃ result, svnStringbufStripWhitespace buf = .ok result ∧ buf.Stripped result := by
  have valid : (⟨fun _ => 0, 8, 0⟩ : SvnString).Valid := ⟨by decide, by decide⟩
  have validBuf : (⟨fun _ => 0, 8, 0, 1⟩ : SvnStringbuf).Valid :=
    ⟨by decide, by decide, by decide, rfl⟩
  refine ⟨_, _, valid, validBuf, rfl, rfl, ?_, ?_⟩
  · rintro ⟨result, done, _⟩
    rw [svnStringStripWhitespace_space valid nofun] at done
    cases done
  · rintro ⟨result, done, _⟩
    rw [svnStringbufStripWhitespace_space validBuf nofun] at done
    cases done

/-- A letter behind a blank. -/
def blankLetter (place : Nat) : UInt8 := if place = 8 then 32 else if place = 9 then 97 else 0

theorem stripWhitespace_iff_letter :
    ((∃ result, svnStringStripWhitespace ⟨blankLetter, 8, 2⟩ = .ok result ∧
        SvnString.Stripped ⟨blankLetter, 8, 2⟩ result) ↔
      ∃ byte ∈ SvnString.text ⟨blankLetter, 8, 2⟩, ¬ isSpace byte) ∧
    ((∃ result, svnStringbufStripWhitespace ⟨blankLetter, 8, 2, 3⟩ = .ok result ∧
        SvnStringbuf.Stripped ⟨blankLetter, 8, 2, 3⟩ result) ↔
      ∃ byte ∈ SvnStringbuf.text ⟨blankLetter, 8, 2, 3⟩, ¬ isSpace byte) :=
  stripWhitespace_iff ⟨by decide, by decide⟩ ⟨by decide, by decide, by decide, by decide⟩

end Strings

end Subversion.Subr
