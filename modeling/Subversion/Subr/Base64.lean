/-
This file models the base64 encoder and decoder of streams and strings.
-/

import Subversion.Delta.Window
import Subversion.Lib.Filters

namespace Subversion.Subr.Base64

open Delta Filters

def lineLen : Nat := 76

/-- The letters, the digits, and `+/`. -/
def tab : Bytes :=
  (List.range 26).map (fun n => UInt8.ofNat (65 + n)) ++
    (List.range 26).map (fun n => UInt8.ofNat (97 + n)) ++
    (List.range 10).map (fun n => UInt8.ofNat (48 + n)) ++ [43, 47]

def tabByte (index : UInt8) : UInt8 := tab.getD index.toNat 0

def encodeGroup (first second third : UInt8) : Bytes :=
  [tabByte (first >>> 2), tabByte (((first &&& 3) <<< 4) ||| (second >>> 4)),
    tabByte (((second &&& 15) <<< 2) ||| (third >>> 6)), tabByte (third &&& 63)]

/-- The bytes that wait to be encoded, and the length of the current line. -/
structure EncodeBaton where
  buf : Bytes
  linelen : Nat
  waiting : buf.length < 3

/-- A full line ends with a newline. -/
def encodeGroups : Bytes → Nat → EncodeBaton × Bytes
  | first :: second :: third :: rest, linelen =>
      let full := linelen + 4 = lineLen
      let (baton, out) := encodeGroups rest (if full then 0 else linelen + 4)
      (baton, encodeGroup first second third ++ (if full then [10] else []) ++ out)
  | [first, second], linelen => (⟨[first, second], linelen, by simp⟩, [])
  | [first], linelen => (⟨[first], linelen, by simp⟩, [])
  | [], linelen => (⟨[], linelen, by simp⟩, [])

/-- The waiting bytes come first. -/
def encodeBytes : Filter EncodeBaton UInt8 UInt8 := fun baton data =>
  encodeGroups (baton.buf ++ data) baton.linelen

/-- Zeros fill the group up, and their characters become equal signs. -/
def encodePartialGroup (baton : EncodeBaton) : Bytes :=
  match baton.buf with
  | [] => if 0 < baton.linelen then [10] else []
  | extra => (encodeGroup (extra.getD 0 0) (extra.getD 1 0) (extra.getD 2 0)).take (extra.length + 1) ++
      List.replicate (4 - (extra.length + 1)) 61 ++ [10]

/-- All writes and the close. -/
def encode (writes : List Bytes) : Bytes :=
  let (baton, out) := runChunks encodeBytes ⟨[], 0, by simp⟩ writes
  out ++ encodePartialGroup baton

def encodeString (str : Bytes) : Bytes :=
  let (baton, out) := encodeBytes ⟨[], 0, by simp⟩ str
  out ++ encodePartialGroup baton

def decodeGroup (first second third fourth : UInt8) : Bytes :=
  [(first <<< 2) ||| (second >>> 4), ((second &&& 15) <<< 4) ||| (third >>> 2),
    ((third &&& 3) <<< 6) ||| fourth]

/-- The values that wait to be decoded, and whether an equal sign was seen. -/
structure DecodeBaton where
  buf : Bytes
  done : Bool
  deriving DecidableEq, Repr

/-- The search also finds the null byte that ends the table. -/
def tabIndex (byte : UInt8) : Option UInt8 :=
  ((tab ++ [0]).findIdx? (· = byte)).map UInt8.ofNat

def decodeByte (baton : DecodeBaton) (byte : UInt8) : DecodeBaton × Bytes :=
  if baton.done then (baton, [])
  else if byte = 61 then
    ({ baton with done := true },
      if 2 ≤ baton.buf.length then
        (decodeGroup (baton.buf.getD 0 0) (baton.buf.getD 1 0) (baton.buf.getD 2 0)
          (baton.buf.getD 3 0)).take (baton.buf.length - 1)
      else [])
  else
    match baton.buf ++ (tabIndex byte).toList with
    | [first, second, third, fourth] => ({ baton with buf := [] }, decodeGroup first second third fourth)
    | buf => ({ baton with buf := buf }, [])

def decodeBytes : Filter DecodeBaton UInt8 UInt8 := perElement decodeByte

/-- All writes. What still waits at the close is dropped. -/
def decode (writes : List Bytes) : Bytes := (runChunks decodeBytes ⟨[], false⟩ writes).2

def decodeString (str : Bytes) : Bytes := (decodeBytes ⟨[], false⟩ str).2

section Encoding

theorem encodeGroups_append (first second : Bytes) (linelen : Nat) :
    encodeGroups (first ++ second) linelen =
      ((encodeBytes (encodeGroups first linelen).1 second).1,
        (encodeGroups first linelen).2 ++ (encodeBytes (encodeGroups first linelen).1 second).2) := by
  fun_induction encodeGroups first linelen with
  | case1 a b c rest linelen full baton out found ih =>
      rw [List.cons_append, List.cons_append, List.cons_append, encodeGroups, ih, found]
      simp only [List.append_assoc]
      rfl
  | case2 | case3 | case4 => rfl

theorem seamless_encodeBytes : Seamless encodeBytes where
  nil := by
    rintro ⟨buf, linelen, waiting⟩
    match buf, waiting with
    | [], _ => rfl
    | [first], _ => rfl
    | [first, second], _ => rfl
    | first :: second :: third :: rest, long => exact absurd long (by simp)
  append := by
    intro baton first second
    rw [encodeBytes, ← List.append_assoc, encodeGroups_append]
    rfl

end Encoding

section Groups

theorem first_bits : ∀ byte part : UInt8, part.toNat < 16 →
    ((byte >>> 2) <<< 2) ||| ((((byte &&& 3) <<< 4) ||| part) >>> 4) = byte ∧
      byte >>> 2 < 64 ∧ ((byte &&& 3) <<< 4) ||| part < 64 :=
  forall_bytes (by decide +kernel)

theorem second_high_bits : ∀ byte part : UInt8, part.toNat < 4 →
    ((part <<< 4) ||| (byte >>> 4)) &&& (15 : UInt8) = byte >>> 4 :=
  forall_bytes (by decide +kernel)

theorem second_bits : ∀ byte part : UInt8, part.toNat < 4 →
    ((byte >>> 4) <<< 4) ||| ((((byte &&& 15) <<< 2) ||| part) >>> 2) = byte ∧
      ((byte &&& 15) <<< 2) ||| part < 64 :=
  forall_bytes (by decide +kernel)

theorem third_bits : ∀ byte part : UInt8, part.toNat < 16 →
    ((((part <<< 2) ||| (byte >>> 6)) &&& 3) <<< 6) ||| (byte &&& 63) = byte ∧ byte &&& 63 < 64 :=
  forall_bytes (by decide +kernel)

theorem parts_small : ∀ byte zero : UInt8, zero.toNat < 1 → (byte &&& 3).toNat < 4 ∧
    (byte >>> 4).toNat < 16 ∧ (byte &&& 15).toNat < 16 ∧ (byte >>> 6).toNat < 4 :=
  forall_bytes (by decide +kernel)

theorem tabByte_found : ∀ index zero : UInt8, zero.toNat < 1 → index < 64 →
    tabIndex (tabByte index) = some index ∧ tabByte index ≠ 61 :=
  forall_bytes (by decide +kernel)

/-- The six-bit units of a group. -/
def units (first second third : UInt8) : Bytes :=
  [first >>> 2, ((first &&& 3) <<< 4) ||| (second >>> 4), ((second &&& 15) <<< 2) ||| (third >>> 6),
    third &&& 63]

theorem encodeGroup_units (first second third : UInt8) :
    encodeGroup first second third = (units first second third).map tabByte := rfl

theorem units_small (first second third unit : UInt8) (member : unit ∈ units first second third) :
    unit < 64 := by
  obtain ⟨-, highSecond, -, -⟩ := parts_small second 0 Nat.one_pos
  obtain ⟨-, -, -, highThird⟩ := parts_small third 0 Nat.one_pos
  simp only [units, List.mem_cons, List.not_mem_nil, or_false] at member
  rcases member with rfl | rfl | rfl | rfl
  · exact (first_bits first _ highSecond).2.1
  · exact (first_bits first _ highSecond).2.2
  · exact (second_bits second _ highThird).2
  · exact (third_bits third 0 (by decide)).2

/-- The last unit only enters the last byte. -/
theorem decodeGroup_units (first second third last : UInt8) :
    decodeGroup (first >>> 2) (((first &&& 3) <<< 4) ||| (second >>> 4))
      (((second &&& 15) <<< 2) ||| (third >>> 6)) last =
        [first, second, ((((second &&& 15) <<< 2) ||| (third >>> 6)) &&& 3) <<< 6 ||| last] := by
  obtain ⟨lowFirst, -, -, -⟩ := parts_small first 0 Nat.one_pos
  obtain ⟨-, highSecond, -, -⟩ := parts_small second 0 Nat.one_pos
  obtain ⟨-, -, -, highThird⟩ := parts_small third 0 Nat.one_pos
  rw [decodeGroup, (first_bits first _ highSecond).1, second_high_bits second _ lowFirst,
    (second_bits second _ highThird).1]

end Groups

section Decoding

theorem seamless_decodeBytes : Seamless decodeBytes := seamless_perElement decodeByte

theorem decodeByte_unit {buf : Bytes} (short : buf.length < 3) {unit : UInt8} (small : unit < 64) :
    decodeByte ⟨buf, false⟩ (tabByte unit) = (⟨buf ++ [unit], false⟩, []) := by
  obtain ⟨found, plain⟩ := tabByte_found unit 0 Nat.one_pos small
  rw [decodeByte, if_neg Bool.false_ne_true, if_neg plain, found]
  match buf, short with
  | [], _ => rfl
  | [_], _ => rfl
  | [_, _], _ => rfl

theorem decodeByte_last (first second third : UInt8) {unit : UInt8} (small : unit < 64) :
    decodeByte ⟨[first, second, third], false⟩ (tabByte unit) =
      (⟨[], false⟩, decodeGroup first second third unit) := by
  obtain ⟨found, plain⟩ := tabByte_found unit 0 Nat.one_pos small
  rw [decodeByte, if_neg Bool.false_ne_true, if_neg plain, found]
  rfl

theorem decodeBytes_group (first second third : UInt8) (rest : Bytes) :
    decodeBytes ⟨[], false⟩ (encodeGroup first second third ++ rest) =
      ((decodeBytes ⟨[], false⟩ rest).1, first :: second :: third :: (decodeBytes ⟨[], false⟩ rest).2) := by
  have small := units_small first second third
  have whole := decodeGroup_units first second third (third &&& 63)
  obtain ⟨-, -, lowSecond, -⟩ := parts_small second 0 Nat.one_pos
  rw [(third_bits third _ lowSecond).1] at whole
  simp only [encodeGroup_units, units, List.map_cons, List.map_nil, List.mem_cons, List.not_mem_nil,
    or_false, forall_eq_or_imp, forall_eq] at small ⊢
  obtain ⟨one, two, three, four⟩ := small
  simp only [List.cons_append, List.nil_append, decodeBytes, perElement_cons]
  rw [decodeByte_unit (by simp) one, decodeByte_unit (by simp) two, decodeByte_unit (by simp) three]
  simp only [List.nil_append, List.cons_append]
  rw [decodeByte_last _ _ _ four, whole]
  rfl

theorem decodeByte_newline : decodeByte ⟨[], false⟩ 10 = (⟨[], false⟩, []) := by decide

/-- The groups that were written are read back, and the waiting bytes are not there yet. -/
theorem decodeBytes_encodeGroups (data : Bytes) (linelen : Nat) :
    (decodeBytes ⟨[], false⟩ (encodeGroups data linelen).2).1 = ⟨[], false⟩ ∧
      (decodeBytes ⟨[], false⟩ (encodeGroups data linelen).2).2 ++ (encodeGroups data linelen).1.buf =
        data := by
  fun_induction encodeGroups data linelen with
  | case1 first second third rest linelen full baton out found ih =>
      rw [found] at ih
      obtain ⟨state, back⟩ := ih
      dsimp only at state back ⊢
      have line : decodeBytes ⟨[], false⟩ ((if full then [10] else []) ++ out) =
          decodeBytes ⟨[], false⟩ out := by
        split
        · rw [List.singleton_append, decodeBytes, perElement_cons, decodeByte_newline]
          rfl
        · rfl
      rw [List.append_assoc, decodeBytes_group, line]
      exact ⟨state, by simp only [List.cons_append, back]⟩
  | case2 | case3 | case4 => exact ⟨rfl, rfl⟩

/-- A group that was filled up gives the bytes it had before. -/
theorem decodeBytes_partial (baton : EncodeBaton) :
    (decodeBytes ⟨[], false⟩ (encodePartialGroup baton)).2 = baton.buf := by
  obtain ⟨buf, linelen, waiting⟩ := baton
  match buf, waiting with
  | [], _ =>
      unfold encodePartialGroup
      dsimp only
      split
      · rfl
      · rfl
  | [first], _ =>
      have small := units_small first 0 0
      simp only [units, List.mem_cons, List.not_mem_nil, or_false, forall_eq_or_imp, forall_eq] at small
      have text : encodePartialGroup ⟨[first], linelen, by simp⟩ =
          [tabByte (first >>> 2), tabByte (((first &&& 3) <<< 4) ||| ((0 : UInt8) >>> 4)), 61, 61, 10] := rfl
      rw [text, decodeBytes, perElement_cons, decodeByte_unit (by simp) small.1, perElement_cons,
        decodeByte_unit (by simp) small.2.1]
      exact congrArg (List.take 1) (decodeGroup_units first 0 0 0)
  | [first, second], _ =>
      have small := units_small first second 0
      simp only [units, List.mem_cons, List.not_mem_nil, or_false, forall_eq_or_imp, forall_eq] at small
      have text : encodePartialGroup ⟨[first, second], linelen, by simp⟩ =
          [tabByte (first >>> 2), tabByte (((first &&& 3) <<< 4) ||| (second >>> 4)),
            tabByte (((second &&& 15) <<< 2) ||| ((0 : UInt8) >>> 6)), 61, 10] := rfl
      rw [text, decodeBytes, perElement_cons, decodeByte_unit (by simp) small.1, perElement_cons,
        decodeByte_unit (by simp) small.2.1, perElement_cons, decodeByte_unit (by simp) small.2.2.1]
      exact congrArg (List.take 2) (decodeGroup_units first second 0 0)
  | first :: second :: third :: rest, long => exact absurd long (by simp)

theorem decodeString_encodeString (str : Bytes) : decodeString (encodeString str) = str := by
  obtain ⟨state, back⟩ := decodeBytes_encodeGroups str 0
  have split : encodeString str =
      (encodeGroups str 0).2 ++ encodePartialGroup (encodeGroups str 0).1 := rfl
  rw [decodeString, split, seamless_decodeBytes.append, state, decodeBytes_partial]
  exact back

end Decoding

theorem encode_eq (writes : List Bytes) : encode writes = encodeString writes.flatten := by
  unfold encode encodeString
  rw [seamless_encodeBytes.runChunks]

theorem decode_eq (writes : List Bytes) : decode writes = decodeString writes.flatten := by
  rw [decode, seamless_decodeBytes.runChunks, decodeString]

/-- The streams are cut wherever one likes: what was encoded is decoded, and the functions for whole
strings do the same as the streams. -/
theorem base64_roundTrips :
    (∀ writes pieces : List Bytes, pieces.flatten = encode writes → decode pieces = writes.flatten) ∧
    (∀ writes : List Bytes, encode writes = encodeString writes.flatten) ∧
    ∀ pieces : List Bytes, decode pieces = decodeString pieces.flatten := by
  refine ⟨fun writes pieces encoded => ?_, encode_eq, decode_eq⟩
  rw [decode_eq, encoded, encode_eq, decodeString_encodeString]

end Subversion.Subr.Base64
