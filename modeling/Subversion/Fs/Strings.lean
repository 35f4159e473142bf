/-
This file models the strings table. Each key owns a sequence of records.
-/

import Mathlib.Logic.Function.Basic
import Subversion.Delta.Window

namespace Subversion.Fs

open Delta

/-- A key is the position of its base-36 text in the order of keys. `none` is the empty text. -/
abbrev StrKey := Option Nat

def keyDigit (digit : Nat) : Char :=
  if digit < 10 then Char.ofNat (48 + digit) else Char.ofNat (87 + digit)

/-- Each unit of fuel writes one digit. -/
def keyDigits : Nat → Nat → List Char
  | 0, _ => []
  | fuel + 1, value =>
      if value < 36 then [keyDigit value]
      else keyDigits fuel (value / 36) ++ [keyDigit (value % 36)]

def keyText (key : Nat) : String := String.ofList (keyDigits (key + 1) key)

def strKeyText : StrKey → String
  | none => ""
  | some key => keyText key

structure StringsTable where
  records : StrKey → Option (List Bytes)
  nextKey : Nat

def emptyStrings : StringsTable := ⟨fun _ => none, 0⟩

/-- The first record of the key must exist. -/
def locateKey (table : StringsTable) (key : StrKey) : Except SvnError (List Bytes) :=
  match table.records key with
  | some records => .ok records
  | none => .error ⟨.fsNoSuchString, "locate_key: no such string `" ++ strKeyText key ++ "'"⟩

/-- The record that includes the offset is read, and the read may stop at its end. -/
def readRecord (len : Nat) : List Bytes → Nat → Bytes
  | [], _ => []
  | record :: records, offset =>
      if record.length ≤ offset then readRecord len records (offset - record.length)
      else (record.drop offset).take len

/-- The loop of `svn_fs__string_read`. Each round that continues has read at least one byte. -/
def readRecords (records : List Bytes) (offset len : Nat) : Nat → Bytes → Bytes
  | 0, buf => buf
  | fuel + 1, buf =>
      let piece := readRecord (len - buf.length) records (offset + buf.length)
      if piece = [] ∨ (buf ++ piece).length = len then buf ++ piece
      else readRecords records offset len fuel (buf ++ piece)

def stringRead (table : StringsTable) (key : StrKey) (offset len : Nat) : Except SvnError Bytes :=
  match locateKey table key with
  | .error error => .error error
  | .ok records => .ok (readRecords records offset len (len + 1) [])

def stringSize (table : StringsTable) (key : StrKey) : Except SvnError Nat :=
  match locateKey table key with
  | .error error => .error error
  | .ok records => .ok (records.map List.length).sum

def getKeyAndBump (table : StringsTable) : StrKey × StringsTable :=
  (some table.nextKey, { table with nextKey := table.nextKey + 1 })

/-- Without a key, a new string is started. -/
def stringAppend (table : StringsTable) (key : Option StrKey) (bytes : Bytes) :
    StrKey × StringsTable :=
  let (key, table) :=
    match key with
    | some key => (key, table)
    | none => getKeyAndBump table
  (key, { table with
    records := Function.update table.records key
      (some ((table.records key).getD [] ++ [bytes])) })

def stringClear (table : StringsTable) (key : StrKey) : Except SvnError StringsTable :=
  match table.records key with
  | some _ => .ok { table with records := Function.update table.records key (some [[]]) }
  | none => .error ⟨.fsNoSuchString,
      "svn_fs__string_clear: no such string `" ++ strKeyText key ++ "'"⟩

def stringDelete (table : StringsTable) (key : StrKey) : Except SvnError StringsTable :=
  match table.records key with
  | some _ => .ok { table with records := Function.update table.records key none }
  | none => .error ⟨.fsNoSuchString,
      "svn_fs__delete_string: no such string `" ++ strKeyText key ++ "'"⟩

def stringCopy (table : StringsTable) (key : StrKey) : Except SvnError (StrKey × StringsTable) :=
  let (newKey, table) := getKeyAndBump table
  match table.records key with
  | some records => .ok (newKey, { table with
      records := Function.update table.records newKey
        (some ((table.records newKey).getD [] ++ records)) })
  | none => .error ⟨.berkeleyDb, "getting next-key value"⟩

/-- The bytes behind a key, without the bounds of its records. -/
def StringsTable.text (table : StringsTable) (key : StrKey) : Option Bytes :=
  (table.records key).map List.flatten

theorem readRecord_eq (len : Nat) (records : List Bytes) (offset : Nat) :
    ∃ count, readRecord len records offset = (records.flatten.drop offset).take count ∧
      count ≤ len ∧ (offset < records.flatten.length → 0 < len → 0 < count) := by
  induction records generalizing offset with
  | nil => exact ⟨0, by simp [readRecord], Nat.zero_le _, by simp⟩
  | cons record records ih =>
      rw [readRecord]
      split
      · next past =>
          obtain ⟨count, equal, le, positive⟩ := ih (offset - record.length)
          refine ⟨count, ?_, le, ?_⟩
          · rw [equal, List.flatten_cons, List.drop_append, List.drop_eq_nil_of_le past,
              List.nil_append]
          · intro inside
            rw [List.flatten_cons, List.length_append] at inside
            exact positive (by omega)
      · next inside =>
          refine ⟨min len (record.length - offset), ?_, Nat.min_le_left _ _, fun _ _ => by omega⟩
          rw [List.flatten_cons, List.drop_append_of_le_length (by omega),
            List.take_append_of_le_length (by rw [List.length_drop]; omega),
            List.take_eq_take_iff, List.length_drop]
          omega

/-- The loop extends a prefix of the requested range until the range is complete. -/
theorem readRecords_eq (records : List Bytes) (offset len fuel : Nat) :
    ∀ buf : Bytes, buf = (records.flatten.drop offset).take buf.length → buf.length ≤ len →
      len < buf.length + fuel →
      readRecords records offset len fuel buf = (records.flatten.drop offset).take len := by
  induction fuel with
  | zero =>
      intro buf _ le enough
      omega
  | succ fuel ih =>
      intro buf isPrefix le enough
      obtain ⟨count, piece, small, positive⟩ :=
        readRecord_eq (len - buf.length) records (offset + buf.length)
      have grown : buf ++ (records.flatten.drop (offset + buf.length)).take count =
          (records.flatten.drop offset).take (buf.length + count) := by
        rw [List.take_add, ← isPrefix, List.drop_drop]
      rw [readRecords, piece, grown]
      split
      · next stops =>
          rw [List.take_eq_take_iff, List.length_drop]
          rcases stops with ended | full
          · have none : count = 0 ∨ records.flatten.length ≤ offset + buf.length := by
              simpa using ended
            omega
          · rw [List.length_take, List.length_drop] at full
            omega
      · next continues =>
          push Not at continues
          have lengthEq : ((records.flatten.drop offset).take (buf.length + count)).length =
              min (buf.length + count) (records.flatten.length - offset) := by
            rw [List.length_take, List.length_drop]
          have nonempty : 0 < count ∧ offset + buf.length < records.flatten.length := by
            have some := List.length_pos_iff.mpr continues.1
            rw [List.length_take, List.length_drop] at some
            omega
          apply ih
          · rw [lengthEq, List.take_eq_take_iff, List.length_drop]
            omega
          · omega
          · omega

theorem stringRead_eq {table : StringsTable} {key : StrKey} {bytes : Bytes}
    (present : table.text key = some bytes) (offset len : Nat) :
    stringRead table key offset len = .ok ((bytes.drop offset).take len) := by
  unfold StringsTable.text at present
  obtain ⟨records, found, rfl⟩ := Option.map_eq_some_iff.mp present
  simp only [stringRead, locateKey, found]
  rw [readRecords_eq records offset len (len + 1) [] rfl (Nat.zero_le _) (by simp)]

theorem stringSize_eq {table : StringsTable} {key : StrKey} {bytes : Bytes}
    (present : table.text key = some bytes) : stringSize table key = .ok bytes.length := by
  unfold StringsTable.text at present
  obtain ⟨records, found, rfl⟩ := Option.map_eq_some_iff.mp present
  simp only [stringSize, locateKey, found, List.length_flatten]

end Subversion.Fs
