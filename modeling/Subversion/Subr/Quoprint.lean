/-
This file models the quoted-printable encoder and decoder of streams.
-/

import Subversion.Delta.Window
import Subversion.Lib.Filters

namespace Subversion.Subr.Quoprint

open Delta Filters

def lineLen : Nat := 76

def validLiteral (c : UInt8) : Bool := c = 9 || (32 ≤ c && c ≤ 126 && c ≠ 61)

/-- A tab and the characters `<>'"&` are valid, but they are quoted for XML. -/
def encodeAsLiteral (c : UInt8) : Bool :=
  validLiteral c && c ≠ 9 && c ≠ 60 && c ≠ 62 && c ≠ 39 && c ≠ 34 && c ≠ 38

/-- The digits `0123456789ABCDEF`. -/
def hextab : Bytes := [48, 49, 50, 51, 52, 53, 54, 55, 56, 57, 65, 66, 67, 68, 69, 70]

def quoted (c : UInt8) : Bytes :=
  if encodeAsLiteral c then [c]
  else [61, hextab.getD ((c >>> 4) &&& 15).toNat 0, hextab.getD (c &&& 15).toNat 0]

/-- The state is the length of the current line. A long line ends with a soft break. -/
def encodeByte (linelen : Nat) (c : UInt8) : Nat × Bytes :=
  let written := linelen + (quoted c).length
  if lineLen < written + 3 then (0, quoted c ++ [61, 10]) else (written, quoted c)

def encodeBytes : Filter Nat UInt8 UInt8 := perElement encodeByte

/-- All writes and the close. -/
def encode (writes : List Bytes) : Bytes :=
  let (linelen, out) := runChunks encodeBytes 0 writes
  out ++ if 0 < linelen then [61, 10] else []

/-- The search also finds the null byte that ends the table. -/
def hexIndex (c : UInt8) : Option Nat := (hextab ++ [0]).findIdx? (· = c)

/-- The state holds the bytes of an escape that is not complete. -/
def decodeByte (buf : Bytes) (c : UInt8) : Bytes × Bytes :=
  match buf ++ [c] with
  | 61 :: rest =>
      match rest with
      | [10] => ([], [])
      | [first, second] =>
          match hexIndex first, hexIndex second with
          | some high, some low => ([], [UInt8.ofNat ((high <<< 4) ||| low)])
          | _, _ => ([], [])
      | _ => (buf ++ [c], [])
  | literal :: _ => ([], if validLiteral literal then [literal] else [])
  | [] => ([], [])

/-- The loop runs as long as `p <= data + len`. -/
def indexes (len : Nat) : List Nat := List.range (len + 1)

/-- The bytes of one write, and the byte that stands behind them in memory. -/
structure Write where
  data : Bytes
  behind : UInt8

def decodeBytes (buf : Bytes) (write : Write) : Bytes × Bytes :=
  perElement decodeByte buf ((indexes write.data.length).map fun p => write.data.getD p write.behind)

/-- All writes. What still waits at the close is dropped. -/
def decodeFrom : Bytes → List Write → Bytes
  | _, [] => []
  | buf, write :: writes =>
      let (next, out) := decodeBytes buf write
      out ++ decodeFrom next writes

def decode (writes : List Write) : Bytes := decodeFrom [] writes

/-- No byte is read but those of the write. -/
def ReadsInside (write : Write) : Prop := ∀ p ∈ indexes write.data.length, p < write.data.length

/-- Each write ends between two escapes, and the byte behind it is thrown away. -/
def Harmless : List Write → Prop
  | [] => True
  | write :: writes => (perElement decodeByte [] write.data).1 = [] ∧
      validLiteral write.behind = false ∧ write.behind ≠ 61 ∧ Harmless writes

section Decoding

theorem seamless_decode : Seamless (perElement decodeByte) := seamless_perElement decodeByte

/-- The byte behind the write is decoded as well. -/
theorem decodeBytes_eq (buf : Bytes) (write : Write) :
    decodeBytes buf write = perElement decodeByte buf (write.data ++ [write.behind]) := by
  rw [decodeBytes, indexes, List.range_succ, List.map_append]
  congr 2
  · apply List.ext_getElem (by simp)
    intro p _ _
    simp [*]
  · simp

theorem not_readsInside (write : Write) : ¬ ReadsInside write := by
  intro inside
  have := inside write.data.length (List.mem_range.mpr (Nat.lt_succ_self _))
  omega

theorem decode_quoted : ∀ c : UInt8, perElement decodeByte [] (quoted c) = ([], [c]) :=
  forall_byte (by decide +kernel)

theorem decodeByte_dropped : ∀ c : UInt8, validLiteral c = false → c ≠ 61 →
    decodeByte [] c = ([], []) := forall_byte (by decide +kernel)

theorem decode_break : perElement decodeByte [] [61, 10] = ([], []) := by decide

/-- What one byte was encoded to is read as this byte. -/
theorem decode_encodeByte (linelen : Nat) (c : UInt8) :
    perElement decodeByte [] (encodeByte linelen c).2 = ([], [c]) := by
  unfold encodeByte
  dsimp only
  split
  · rw [seamless_decode.append, decode_quoted, decode_break, List.append_nil]
  · exact decode_quoted c

theorem decode_encodeBytes (data : Bytes) :
    ∀ linelen, perElement decodeByte [] (encodeBytes linelen data).2 = ([], data) := by
  induction data with
  | nil => exact fun _ => rfl
  | cons c rest ih =>
      intro linelen
      rw [encodeBytes, perElement_cons, seamless_decode.append, decode_encodeByte]
      rw [encodeBytes] at ih
      rw [ih, List.singleton_append]

theorem decode_encode (writes : List Bytes) :
    perElement decodeByte [] (encode writes) = ([], writes.flatten) := by
  rw [encode, encodeBytes, (seamless_perElement encodeByte).runChunks]
  dsimp only
  rw [seamless_decode.append]
  have whole := decode_encodeBytes writes.flatten 0
  rw [encodeBytes] at whole
  rw [whole]
  split
  · rw [decode_break, List.append_nil]
  · rw [seamless_decode.nil, List.append_nil]

/-- A harmless byte behind each write changes nothing. -/
theorem Harmless.decode {writes : List Write} (harmless : Harmless writes) :
    decode writes = (perElement decodeByte [] (writes.map Write.data).flatten).2 := by
  unfold Quoprint.decode
  induction writes with
  | nil => rfl
  | cons write writes ih =>
      obtain ⟨between, invalid, plain, later⟩ := harmless
      have dropped : perElement decodeByte [] [write.behind] = ([], []) := by
        rw [perElement_cons]
        rw [decodeByte_dropped write.behind invalid plain]
        rfl
      rw [decodeFrom, decodeBytes_eq, List.map_cons, List.flatten_cons, seamless_decode.append,
        seamless_decode.append, between, dropped]
      rw [List.append_nil]
      exact congrArg _ (ih later)

end Decoding

theorem encode_nonempty {writes : List Bytes} (empty : encode writes = []) : writes.flatten = [] := by
  have decoded := decode_encode writes
  rw [empty, seamless_decode.nil] at decoded
  exact (Prod.mk.inj decoded).2.symm

/-- The encoded bytes go to the decoder in any pieces. Every piece makes it read the byte behind; the
bytes come back when this does no harm. -/
theorem quoprint_roundTrips_iff (writes : List Bytes) (pieces : List Write)
    (encoded : (pieces.map Write.data).flatten = encode writes) :
    ((decode pieces = writes.flatten ∧ ∀ piece ∈ pieces, ReadsInside piece) ↔ pieces = []) ∧
      (Harmless pieces → decode pieces = writes.flatten) := by
  constructor
  · constructor
    · rintro ⟨-, inside⟩
      cases pieces with
      | nil => rfl
      | cons piece rest => exact absurd (inside piece List.mem_cons_self) (not_readsInside piece)
    · rintro rfl
      refine ⟨?_, by simp⟩
      rw [encode_nonempty encoded.symm]
      rfl
  · intro harmless
    rw [harmless.decode, encoded, decode_encode]

/-- The one byte 128 in one write, with a null byte behind it. -/
theorem quoprint_roundTrips_iff_whole : decode [⟨[61, 56, 48, 61, 10], 0⟩] = [128] :=
  (quoprint_roundTrips_iff [[128]] [⟨[61, 56, 48, 61, 10], 0⟩] (by decide)).2
    ⟨by decide, by decide, by decide, trivial⟩

/-- An escape that is cut is completed by the byte behind the first write. -/
theorem quoprint_decodes_behind : encode [[128]] = [61, 56] ++ [48, 61, 10] ∧
    decode [⟨[61, 56], 0⟩, ⟨[48, 61, 10], 0⟩] = [144, 48] ∧ ¬ ReadsInside ⟨[61, 56], 0⟩ :=
  ⟨by decide, by decide, not_readsInside _⟩

end Subversion.Subr.Quoprint
