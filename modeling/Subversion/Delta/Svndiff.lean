/-
This file models the svndiff encoder and the parser stream that reads it back.
-/

import Subversion.Delta.TextDelta

namespace Subversion.Svndiff

open SelfCopy Framing Delta

/-- Arithmetic on `apr_size_t` wraps at 64 bits. -/
def sizeAdd (first second : Nat) : Nat := (first + second) % 2 ^ 64

def sizeSub (first second : Nat) : Nat := (first + 2 ^ 64 - second) % 2 ^ 64

theorem sizeAdd_small {first second : Nat} (small : first + second < 2 ^ 64) :
    sizeAdd first second = first + second := Nat.mod_eq_of_lt small

theorem sizeSub_small {first second : Nat} (le : second ≤ first) (small : first < 2 ^ 64) :
    sizeSub first second = first - second := by
  unfold sizeSub
  omega

/-- The bytes "SVN\0" start every svndiff stream. -/
def svndiffHeader : Bytes := [83, 86, 78, 0]

/-- Each unit of fuel counts one more byte. An `apr_off_t` needs at most ten. -/
def countBytes : Nat → Nat → Nat
  | 0, _ => 0
  | fuel + 1, value => if 0 < value then countBytes fuel (value / 128) + 1 else 0

/-- The argument counts the bytes that are still to be written. -/
def encodeBytes (value : Nat) : Nat → Bytes
  | 0 => []
  | count + 1 =>
      UInt8.ofNat (value / 128 ^ count % 128 + if 0 < count then 128 else 0) ::
        encodeBytes value count

/-- High-order bits come first, and the high bit of a byte marks a continuation. -/
def encodeInt (value : Nat) : Option Bytes :=
  if negative value then none else some (encodeBytes value (countBytes 10 (value / 128) + 1))

/-- The two high bits of an instruction select the action. -/
def selector : DeltaAction → Nat
  | .source => 0
  | .target => 64
  | .new => 128

/-- A length below 64 shares the byte of the selector. -/
def encodeLength (op : TxdeltaOp) : Option Bytes :=
  if op.length < 64 then some [UInt8.ofNat (selector op.actionCode + op.length)]
  else (encodeInt op.length).map (UInt8.ofNat (selector op.actionCode) :: ·)

/-- New data has no offset. -/
def encodeOffset (op : TxdeltaOp) : Option Bytes :=
  if op.actionCode = .new then some [] else encodeInt op.offset

def encodeOp (op : TxdeltaOp) : Option Bytes := do
  let length ← encodeLength op
  let offset ← encodeOffset op
  return length ++ offset

def encodeOps : List TxdeltaOp → Option Bytes
  | [] => some []
  | op :: ops => do
      let first ← encodeOp op
      let rest ← encodeOps ops
      return first ++ rest

/-- The header, the instructions, and the new data are written one after the other. -/
def encodeWrites (window : TxdeltaWindow) : Option (List Bytes) := do
  let instructions ← encodeOps window.ops
  let sviewOffset ← encodeInt window.sviewOffset
  let sviewLen ← encodeInt window.sviewLen
  let tviewLen ← encodeInt window.tviewLen
  let inslen ← encodeInt instructions.length
  let newlen ← encodeInt window.newLen
  return [sviewOffset ++ sviewLen ++ tviewLen ++ inslen ++ newlen] ++
    (if 0 < instructions.length then [instructions] else []) ++
    (if 0 < window.newLen then [window.newData.take window.newLen] else [])

def encodeWindow (window : TxdeltaWindow) : Option Bytes :=
  (encodeWrites window).map List.flatten

structure EncoderBaton where
  output : Bytes
  headerDone : Bool
  closed : Bool
  deriving DecidableEq, Repr

def txdeltaToSvndiff : EncoderBaton := ⟨[], false, false⟩

/-- The header is written before the first window or the end mark. -/
def windowHandler : WindowHandler EncoderBaton := fun baton window =>
  let started :=
    if baton.headerDone then baton
    else { baton with output := baton.output ++ svndiffHeader, headerDone := true }
  match window with
  | none => ({ started with closed := true }, none)
  | some window =>
      match encodeWindow window with
      | none => (started, some SvnError.assertion)
      | some bytes => ({ started with output := started.output ++ bytes }, none)

/-- A shift of an `apr_off_t` drops the high bits. -/
def decodeIntFrom (value : Nat) : Bytes → Option (Nat × Bytes)
  | [] => none
  | byte :: rest =>
      let next := (value * 128 + byte.toNat % 128) % 2 ^ 64
      if byte.toNat < 128 then some (next, rest) else decodeIntFrom next rest

def decodeInt (bytes : Bytes) : Option (Nat × Bytes) := decodeIntFrom 0 bytes

def decodeSelector (byte : UInt8) : Option DeltaAction :=
  match byte.toNat / 64 with
  | 0 => some .source
  | 1 => some .target
  | 2 => some .new
  | _ => none

def decodeLength (byte : UInt8) (rest : Bytes) : Option (Nat × Bytes) :=
  if byte.toNat % 64 = 0 then decodeInt rest else some (byte.toNat % 64, rest)

/-- The offset of a new-data instruction is left for the caller. -/
def decodeOffset (actionCode : DeltaAction) (rest : Bytes) : Option (Nat × Bytes) :=
  if actionCode = .new then some (0, rest) else decodeInt rest

def decodeInstruction : Bytes → Option (TxdeltaOp × Bytes)
  | [] => none
  | byte :: rest => do
      let actionCode ← decodeSelector byte
      let (length, rest) ← decodeLength byte rest
      let (offset, rest) ← decodeOffset actionCode rest
      return (⟨actionCode, offset, length⟩, rest)

structure WindowHeader where
  sviewOffset : Nat
  sviewLen : Nat
  tviewLen : Nat
  inslen : Nat
  newlen : Nat
  deriving DecidableEq, Repr

/-- One instruction passes the checks of the parser and moves the two positions. -/
def verifyOp (header : WindowHeader) (reached : Reached) (op : TxdeltaOp) : Option Reached :=
  if negative op.length ∨ sizeSub header.tviewLen reached.target < op.length then none
  else
    match op.actionCode with
    | .source =>
        if negative op.offset ∨ sizeSub header.sviewLen op.offset < op.length then none
        else some ⟨sizeAdd reached.target op.length, reached.new⟩
    | .target =>
        if negative op.offset ∨ reached.target ≤ op.offset then none
        else some ⟨sizeAdd reached.target op.length, reached.new⟩
    | .new =>
        if sizeSub header.newlen reached.new < op.length then none
        else some ⟨sizeAdd reached.target op.length, sizeAdd reached.new op.length⟩

/-- Each unit of fuel decodes one instruction. The result counts the instructions. -/
def countAndVerifyInstructions (header : WindowHeader) : Nat → Bytes → Reached → Option Nat
  | 0, _, _ => none
  | _ + 1, [], reached =>
      if reached = ⟨header.tviewLen, header.newlen⟩ then some 0 else none
  | fuel + 1, bytes, reached => do
      let (op, rest) ← decodeInstruction bytes
      let next ← verifyOp header reached op
      let count ← countAndVerifyInstructions header fuel rest next
      return count + 1

/-- New-data instructions take their offsets from the running position. -/
def decodeOps : Nat → Bytes → Nat → Option (List TxdeltaOp × Bytes)
  | 0, bytes, _ => some ([], bytes)
  | count + 1, bytes, npos => do
      let (op, rest) ← decodeInstruction bytes
      if op.actionCode = .new then
        let (ops, rest) ← decodeOps count rest (sizeAdd npos op.length)
        return ({ op with offset := npos } :: ops, rest)
      else
        let (ops, rest) ← decodeOps count rest npos
        return (op :: ops, rest)

def decodeHeader (bytes : Bytes) : Option (WindowHeader × Bytes) := do
  let (sviewOffset, bytes) ← decodeInt bytes
  let (sviewLen, bytes) ← decodeInt bytes
  let (tviewLen, bytes) ← decodeInt bytes
  let (inslen, bytes) ← decodeInt bytes
  let (newlen, bytes) ← decodeInt bytes
  return (⟨sviewOffset, sviewLen, tviewLen, inslen, newlen⟩, bytes)

/-- The last source view, and whether the read position has left the buffer. -/
structure DecodeState where
  lastSviewOffset : Nat
  lastSviewLen : Nat
  strayed : Bool
  deriving DecidableEq, Repr

/-- The source view of the window slides backwards. -/
def SlidesBackward (state : DecodeState) (header : WindowHeader) : Prop :=
  header.sviewOffset < state.lastSviewOffset ∨
    sizeAdd header.sviewOffset header.sviewLen < sizeAdd state.lastSviewOffset state.lastSviewLen

instance (state : DecodeState) (header : WindowHeader) : Decidable (SlidesBackward state header) :=
  inferInstanceAs (Decidable (_ ∨ _))

/-- The instructions are verified before any of them is used. -/
def verifiedCount (header : WindowHeader) (bytes : Bytes) : Option Nat :=
  countAndVerifyInstructions header ((bytes.take header.inslen).length + 1)
    (bytes.take header.inslen) ⟨0, 0⟩

/-- The instructions are decoded, verified, and turned into a window. -/
def buildWindow (header : WindowHeader) (bytes : Bytes) :
    Verdict UInt8 DecodeState TxdeltaWindow SvnError :=
  match verifiedCount header bytes with
  | none => .stop ⟨.svndiffInvalidOps, "svndiff contains invalid instructions"⟩
  | some ninst =>
      -- the count is an `int`
      if 2 ^ 31 ≤ ninst then .stop SvnError.undefinedBehaviour
      else
        match decodeOps ninst (bytes.take header.inslen) 0 with
        | none => .stop SvnError.undefinedBehaviour
        | some (ops, left) =>
            let data := left ++ bytes.drop header.inslen
            .item ⟨header.sviewOffset, header.sviewLen, decide (data.length < header.newlen)⟩
              ⟨header.sviewOffset, header.sviewLen, header.tviewLen, ops,
                data.take header.newlen, header.newlen⟩
              (data.drop header.newlen)

/-- One round of the loop in `write_handler`. -/
def parseWindow (state : DecodeState) (buffer : Bytes) :
    Verdict UInt8 DecodeState TxdeltaWindow SvnError :=
  if state.strayed then .stop SvnError.undefinedBehaviour
  else
    match decodeHeader buffer with
    | none => .more
    | some (header, bytes) =>
        -- the other comparisons with zero are on unsigned values
        if negative header.sviewOffset then
          .stop ⟨.svndiffCorruptWindow, "svndiff contains corrupt window header"⟩
        else if SlidesBackward state header then
          .stop ⟨.svndiffBackwardView, "svndiff has backwards-sliding source views"⟩
        else if bytes.length < sizeAdd header.inslen header.newlen then .more
        else if bytes.length < header.inslen then .stop SvnError.undefinedBehaviour
        else buildWindow header bytes

structure DecodeBaton (B : Type) where
  drain : Drain UInt8 DecodeState B
  headerBytes : Nat
  errorOnEarlyClose : Bool

def txdeltaParseSvndiff {B : Type} (handlerBaton : B) (errorOnEarlyClose : Bool) : DecodeBaton B :=
  ⟨⟨⟨0, 0, false⟩, [], handlerBaton⟩, 0, errorOnEarlyClose⟩

/-- The end mark never comes from the parser's loop. -/
def windowConsumer {B : Type} (handler : WindowHandler B) : Consumer B TxdeltaWindow SvnError :=
  fun baton window => handler baton (some window)

/-- The four header bytes are chewed up first, and the rest goes to the buffer. -/
def writeHandler {B : Type} (handler : WindowHandler B) (baton : DecodeBaton B) (chunk : Bytes) :
    DecodeBaton B × Option SvnError :=
  let nheader := min (4 - baton.headerBytes) chunk.length
  if chunk.take nheader ≠ (svndiffHeader.drop baton.headerBytes).take nheader then
    (baton, some ⟨.svndiffInvalidHeader, "svndiff has invalid header"⟩)
  else
    match feed parseWindow (windowConsumer handler) baton.drain (chunk.drop nheader) with
    | (drain, error) =>
        ({ baton with drain := drain, headerBytes := baton.headerBytes + nheader }, error)

/-- The first error ends the sequence of writes. -/
def writeAll {B : Type} (handler : WindowHandler B) :
    DecodeBaton B → List Bytes → DecodeBaton B × Option SvnError
  | baton, [] => (baton, none)
  | baton, chunk :: chunks =>
      match writeHandler handler baton chunk with
      | (next, some error) => (next, some error)
      | (next, none) => writeAll handler next chunks

def closeHandler {B : Type} (handler : WindowHandler B) (baton : DecodeBaton B) :
    B × Option SvnError :=
  if baton.errorOnEarlyClose ∧ (baton.headerBytes < 4 ∨ baton.drain.buffer ≠ []) then
    (baton.drain.baton, some ⟨.svndiffUnexpectedEnd, "unexpected end of svndiff input"⟩)
  else handler baton.drain.baton none

theorem countBytes_le (fuel value : Nat) : countBytes fuel value ≤ fuel := by
  induction fuel generalizing value with
  | zero => exact le_rfl
  | succ fuel ih =>
      have := ih (value / 128)
      rw [countBytes]
      split <;> omega

/-- The counted bytes hold all bits of the value. -/
theorem lt_countBytes (fuel value : Nat) (small : value < 128 ^ fuel) :
    value < 128 ^ countBytes fuel value := by
  induction fuel generalizing value with
  | zero => exact small
  | succ fuel ih =>
      rw [countBytes]
      split
      · have quotient := ih (value / 128) (by rw [pow_succ] at small; omega)
        rw [pow_succ]
        omega
      · rw [pow_zero]
        omega

theorem encodeBytes_length (value count : Nat) : (encodeBytes value count).length = count := by
  induction count with
  | zero => rfl
  | succ count ih => rw [encodeBytes, List.length_cons, ih]

theorem encodeInt_eq (value : Nat) (small : value < 2 ^ 63) :
    encodeInt value = some (encodeBytes value (countBytes 10 (value / 128) + 1)) := by
  rw [encodeInt, if_neg (by simp only [negative]; omega)]

/-- An integer is never encoded in more than eleven bytes. -/
theorem encodeInt_length {value : Nat} {bytes : Bytes} (encoded : encodeInt value = some bytes) :
    0 < bytes.length ∧ bytes.length ≤ 11 := by
  unfold encodeInt at encoded
  split at encoded
  · cases encoded
  · cases encoded
    have := countBytes_le 10 (value / 128)
    rw [encodeBytes_length]
    omega

/-- Reading the digits back shifts them behind the digits already read. -/
theorem decodeIntFrom_encodeBytes (value count : Nat) (rest : Bytes) :
    ∀ prior, decodeIntFrom prior (encodeBytes value (count + 1) ++ rest) =
      some ((prior * 128 ^ (count + 1) + value % 128 ^ (count + 1)) % 2 ^ 64, rest) := by
  induction count with
  | zero =>
      intro prior
      have digit : (UInt8.ofNat (value % 128)).toNat = value % 128 := by
        rw [UInt8.toNat_ofNat']
        omega
      simp [encodeBytes, decodeIntFrom, digit, Nat.mod_lt]
  | succ count ih =>
      intro prior
      have digit : (UInt8.ofNat (value / 128 ^ (count + 1) % 128 + 128)).toNat =
          value / 128 ^ (count + 1) % 128 + 128 := by
        rw [UInt8.toNat_ofNat']
        omega
      rw [encodeBytes, if_pos (Nat.succ_pos count), List.cons_append, decodeIntFrom, digit]
      rw [if_neg (by omega), ih]
      congr 2
      rw [Nat.add_mod_right, Nat.mod_mod, pow_succ 128 (count + 1), Nat.mod_mul, Nat.add_mod,
        Nat.mod_mul_mod, ← Nat.add_mod]
      congr 1
      ring

theorem decodeInt_encodeInt {value : Nat} {bytes : Bytes} (encoded : encodeInt value = some bytes)
    (rest : Bytes) : decodeInt (bytes ++ rest) = some (value, rest) := by
  unfold encodeInt at encoded
  split at encoded
  · cases encoded
  · next small =>
      cases encoded
      simp only [negative, not_le] at small
      have digits := lt_countBytes 10 (value / 128)
        (lt_of_le_of_lt (Nat.div_le_self _ _) (lt_trans small (by decide)))
      have fits : value < 128 ^ (countBytes 10 (value / 128) + 1) := by
        rw [pow_succ]
        omega
      rw [decodeInt, decodeIntFrom_encodeBytes, Nat.zero_mul, Nat.zero_add,
        Nat.mod_eq_of_lt fits, Nat.mod_eq_of_lt (lt_trans small (by decide))]

/-- More input behind a decoded integer stays unread. -/
theorem decodeIntFrom_append {bytes rest : Bytes} {prior value : Nat}
    (decoded : decodeIntFrom prior bytes = some (value, rest)) (more : Bytes) :
    decodeIntFrom prior (bytes ++ more) = some (value, rest ++ more) := by
  induction bytes generalizing prior with
  | nil => cases decoded
  | cons byte bytes ih =>
      simp only [decodeIntFrom] at decoded
      simp only [List.cons_append, decodeIntFrom]
      split at decoded
      · next last =>
          cases decoded
          rw [if_pos last]
      · next continued =>
          rw [if_neg continued]
          exact ih decoded

theorem decodeInt_append {bytes rest : Bytes} {value : Nat}
    (decoded : decodeInt bytes = some (value, rest)) (more : Bytes) :
    decodeInt (bytes ++ more) = some (value, rest ++ more) :=
  decodeIntFrom_append decoded more

theorem decodeHeader_append {bytes rest : Bytes} {header : WindowHeader}
    (decoded : decodeHeader bytes = some (header, rest)) (more : Bytes) :
    decodeHeader (bytes ++ more) = some (header, rest ++ more) := by
  simp only [decodeHeader, Option.bind_eq_bind, Option.bind_eq_some_iff, Option.pure_def,
    Option.some.injEq, Prod.exists] at decoded
  obtain ⟨_, _, first, _, _, second, _, _, third, _, _, fourth, _, _, fifth, equal⟩ := decoded
  cases equal
  simp only [decodeHeader, decodeInt_append first, decodeInt_append second,
    decodeInt_append third, decodeInt_append fourth, decodeInt_append fifth,
    Option.bind_eq_bind, Option.bind_some, Option.pure_def]

theorem decodeIntFrom_length {bytes rest : Bytes} {prior value : Nat}
    (decoded : decodeIntFrom prior bytes = some (value, rest)) : rest.length < bytes.length := by
  induction bytes generalizing prior with
  | nil => cases decoded
  | cons byte bytes ih =>
      simp only [decodeIntFrom] at decoded
      split at decoded
      · cases decoded
        simp
      · have := ih decoded
        rw [List.length_cons]
        omega

theorem decodeHeader_length {bytes rest : Bytes} {header : WindowHeader}
    (decoded : decodeHeader bytes = some (header, rest)) : rest.length < bytes.length := by
  simp only [decodeHeader, Option.bind_eq_bind, Option.bind_eq_some_iff, Option.pure_def,
    Option.some.injEq, Prod.exists] at decoded
  obtain ⟨_, _, first, _, _, second, _, _, third, _, _, fourth, _, _, fifth, equal⟩ := decoded
  cases equal
  have := decodeIntFrom_length first
  have := decodeIntFrom_length second
  have := decodeIntFrom_length third
  have := decodeIntFrom_length fourth
  have := decodeIntFrom_length fifth
  omega

/-- The parser sees a new-data instruction without its offset. -/
def bareOp (op : TxdeltaOp) : TxdeltaOp :=
  if op.actionCode = .new then { op with offset := 0 } else op

theorem bareOp_actionCode (op : TxdeltaOp) : (bareOp op).actionCode = op.actionCode := by
  unfold bareOp
  split <;> rfl

/-- The checks do not look at the offset of a new-data instruction. -/
theorem verifyOp_bareOp (header : WindowHeader) (reached : Reached) (op : TxdeltaOp) :
    verifyOp header reached (bareOp op) = verifyOp header reached op := by
  obtain ⟨action, offset, length⟩ := op
  cases action <;> rfl

/-- The next new-data instruction starts where the one before it has ended. -/
def placeNew (npos : Nat) (op : TxdeltaOp) : Option Nat :=
  if op.actionCode = .new then
    if op.offset = npos then some (npos + op.length) else none
  else some npos

/-- The header of a window whose instructions have `inslen` bytes. -/
def headerOf (window : TxdeltaWindow) (inslen : Nat) : WindowHeader :=
  ⟨window.sviewOffset, window.sviewLen, window.tviewLen, inslen, window.newLen⟩

/-- The parser's own checks accept the window. The count of instructions is an `int`. -/
structure Valid (window : TxdeltaWindow) : Prop where
  few : window.ops.length < 2 ^ 31
  positive : ∀ op ∈ window.ops, 0 < op.length
  small : ∀ op ∈ window.ops, op.length < 2 ^ 63 ∧ op.offset < 2 ^ 63
  placed : window.ops.foldlM placeNew 0 = some window.newLen
  newLen : window.newLen = window.newData.length
  verified : window.ops.foldlM (verifyOp (headerOf window 0)) ⟨0, 0⟩ =
    some ⟨window.tviewLen, window.newLen⟩
  sviewOffset : window.sviewOffset < 2 ^ 63
  sviewLen : window.sviewLen < 2 ^ 63
  tviewLen : window.tviewLen < 2 ^ 63
  newSmall : window.newLen < 2 ^ 63

theorem selector_byte (action : DeltaAction) {low : Nat} (small : low < 64) :
    (UInt8.ofNat (selector action + low)).toNat = selector action + low := by
  rw [UInt8.toNat_ofNat']
  cases action <;> simp only [selector] <;> omega

theorem decodeSelector_byte (action : DeltaAction) {low : Nat} (small : low < 64) :
    decodeSelector (UInt8.ofNat (selector action + low)) = some action := by
  rw [decodeSelector, selector_byte action small]
  have quotient : (selector action + low) / 64 = selector action / 64 := by
    cases action <;> simp only [selector] <;> omega
  rw [quotient]
  cases action <;> rfl

theorem decodeLength_byte (action : DeltaAction) {low : Nat} (small : low < 64) (rest : Bytes) :
    decodeLength (UInt8.ofNat (selector action + low)) rest =
      if low = 0 then decodeInt rest else some (low, rest) := by
  have masked : (selector action + low) % 64 = low := by
    cases action <;> simp only [selector] <;> omega
  rw [decodeLength, selector_byte action small, masked]

/-- The first part of an instruction selects the action and carries the length. -/
theorem encodeLength_decodes {op : TxdeltaOp} (positive : 0 < op.length)
    (small : op.length < 2 ^ 63) :
    ∃ byte tail, encodeLength op = some (byte :: tail) ∧ tail.length ≤ 11 ∧
      decodeSelector byte = some op.actionCode ∧
      ∀ rest, decodeLength byte (tail ++ rest) = some (op.length, rest) := by
  unfold encodeLength
  by_cases inline : op.length < 64
  · refine ⟨_, [], if_pos inline, by simp, decodeSelector_byte op.actionCode inline, ?_⟩
    intro rest
    rw [decodeLength_byte op.actionCode inline, if_neg (Nat.pos_iff_ne_zero.mp positive)]
    rfl
  · have encoded := encodeInt_eq _ small
    refine ⟨UInt8.ofNat (selector op.actionCode + 0), _, by rw [if_neg inline, encoded]; rfl,
      (encodeInt_length encoded).2, decodeSelector_byte op.actionCode (by decide), ?_⟩
    intro rest
    rw [decodeLength_byte op.actionCode (by decide), if_pos rfl]
    exact decodeInt_encodeInt encoded rest

theorem encodeOffset_decodes {op : TxdeltaOp} (small : op.offset < 2 ^ 63) :
    ∃ bytes, encodeOffset op = some bytes ∧ bytes.length ≤ 11 ∧
      ∀ rest, decodeOffset op.actionCode (bytes ++ rest) = some ((bareOp op).offset, rest) := by
  by_cases new : op.actionCode = .new
  · exact ⟨[], by rw [encodeOffset, if_pos new], by simp, fun rest => by
      simp [decodeOffset, bareOp, new]⟩
  · have encoded := encodeInt_eq _ small
    refine ⟨_, by rw [encodeOffset, if_neg new, encoded], (encodeInt_length encoded).2, ?_⟩
    intro rest
    rw [decodeOffset, bareOp, if_neg new, if_neg new]
    exact decodeInt_encodeInt encoded rest

/-- A positive instruction is encoded in a few bytes and read back. -/
theorem encodeOp_decodes {op : TxdeltaOp} (positive : 0 < op.length)
    (length : op.length < 2 ^ 63) (offset : op.offset < 2 ^ 63) :
    ∃ bytes, encodeOp op = some bytes ∧ 0 < bytes.length ∧ bytes.length ≤ 23 ∧
      ∀ rest, decodeInstruction (bytes ++ rest) = some (bareOp op, rest) := by
  obtain ⟨byte, tail, encodedLength, tailShort, selected, readsLength⟩ :=
    encodeLength_decodes positive length
  obtain ⟨last, encodedOffset, lastShort, readsOffset⟩ := encodeOffset_decodes offset
  refine ⟨byte :: tail ++ last, ?_, by simp, by simp; omega, ?_⟩
  · simp [encodeOp, encodedLength, encodedOffset]
  · intro rest
    have same : bareOp op = ⟨op.actionCode, (bareOp op).offset, op.length⟩ := by
      unfold bareOp
      split <;> rfl
    rw [List.cons_append, List.cons_append, List.append_assoc, decodeInstruction, same]
    simp [selected, readsLength, readsOffset]

/-- An instruction that fits has small fields. -/
theorem advance_small (bound : Nat) {sviewLen : Nat} {reached next : Reached} {op : TxdeltaOp}
    (fits : advance sviewLen reached op = some next) (view : sviewLen < bound)
    (target : next.target < bound) (new : next.new < bound) :
    op.length < bound ∧ op.offset < bound := by
  unfold advance at fits
  split at fits <;> split at fits <;> cases fits <;> dsimp only at target new <;> omega

/-- An instruction that fits passes the checks of the parser. -/
theorem verifyOp_advance {header : WindowHeader} {reached next : Reached} {op : TxdeltaOp}
    (fits : advance header.sviewLen reached op = some next)
    (view : header.sviewLen < 2 ^ 63) (target : header.tviewLen < 2 ^ 63)
    (new : header.newlen < 2 ^ 63) (inTarget : next.target ≤ header.tviewLen)
    (inNew : next.new ≤ header.newlen) : verifyOp header reached op = some next := by
  have small := advance_small (2 ^ 63) fits view (lt_of_le_of_lt inTarget target)
    (lt_of_le_of_lt inNew new)
  have grows := advance_target fits
  have targetAdd : sizeAdd reached.target op.length = reached.target + op.length :=
    sizeAdd_small (by omega)
  have targetSub : sizeSub header.tviewLen reached.target = header.tviewLen - reached.target :=
    sizeSub_small (by omega) (by omega)
  obtain ⟨action, offset, length⟩ := op
  dsimp only at small grows targetAdd
  cases action with
  | source =>
      simp only [advance] at fits
      split at fits
      · next inside =>
          cases fits
          have viewSub : sizeSub header.sviewLen offset = header.sviewLen - offset :=
            sizeSub_small (by omega) (by omega)
          simp only [verifyOp, negative, targetAdd, targetSub, viewSub]
          rw [if_neg (by omega), if_neg (by omega)]
      · cases fits
  | target =>
      simp only [advance] at fits
      split at fits
      · cases fits
        simp only [verifyOp, negative, targetAdd, targetSub]
        rw [if_neg (by omega), if_neg (by omega)]
      · cases fits
  | new =>
      simp only [advance] at fits
      split at fits
      · cases fits
        dsimp only at inNew
        have newAdd : sizeAdd reached.new length = reached.new + length := sizeAdd_small (by omega)
        have newSub : sizeSub header.newlen reached.new = header.newlen - reached.new :=
          sizeSub_small (by omega) (by omega)
        simp only [verifyOp, negative, targetAdd, targetSub, newAdd, newSub]
        rw [if_neg (by omega), if_neg (by omega)]
      · cases fits

/-- The checks keep the new data inside its length, and other instructions do not use it. -/
theorem verifyOp_new {header : WindowHeader} {reached next : Reached} {op : TxdeltaOp}
    (verified : verifyOp header reached op = some next) (new : header.newlen < 2 ^ 63)
    (inside : reached.new ≤ header.newlen) :
    next.new = (if op.actionCode = .new then reached.new + op.length else reached.new) ∧
      next.new ≤ header.newlen := by
  unfold verifyOp at verified
  split at verified
  · cases verified
  · split at verified
    · next isSource =>
        split at verified
        · cases verified
        · cases verified
          exact ⟨by simp [isSource], inside⟩
    · next isTarget =>
        split at verified
        · cases verified
        · cases verified
          exact ⟨by simp [isTarget], inside⟩
    · next isNew =>
        rw [sizeSub_small inside (by omega)] at verified
        split at verified
        · cases verified
        · next room =>
            cases verified
            have added : sizeAdd reached.new op.length = reached.new + op.length :=
              sizeAdd_small (by omega)
            dsimp only
            rw [if_pos isNew, added]
            exact ⟨rfl, by omega⟩

/-- Instructions that the parser accepts are encoded, verified, and read back. -/
theorem encodeOps_decodes (header : WindowHeader) (new : header.newlen < 2 ^ 63)
    (ops : List TxdeltaOp) :
    ∀ (reached last : Reached) (newEnd : Nat), reached.new ≤ header.newlen →
      last = ⟨header.tviewLen, header.newlen⟩ → (∀ op ∈ ops, 0 < op.length) →
      (∀ op ∈ ops, op.length < 2 ^ 63 ∧ op.offset < 2 ^ 63) →
      ops.foldlM placeNew reached.new = some newEnd →
      ops.foldlM (verifyOp header) reached = some last →
      ∃ bytes, encodeOps ops = some bytes ∧ bytes.length ≤ 23 * ops.length ∧
        (∀ fuel, bytes.length < fuel →
          countAndVerifyInstructions header fuel bytes reached = some ops.length) ∧
        decodeOps ops.length bytes reached.new = some (ops, []) := by
  induction ops with
  | nil =>
      intro reached last newEnd _ ends _ _ _ verified
      cases verified
      refine ⟨[], rfl, by simp, ?_, rfl⟩
      intro fuel enough
      obtain ⟨fuel, rfl⟩ : ∃ less, fuel = less + 1 := ⟨fuel - 1, by omega⟩
      simp [countAndVerifyInstructions, ends]
  | cons op ops ih =>
      intro reached last newEnd inside ends positive small placed verified
      simp only [List.foldlM_cons, Option.bind_eq_bind, Option.bind_eq_some_iff] at placed verified
      obtain ⟨next, first, verifiedRest⟩ := verified
      obtain ⟨position, starts, placedRest⟩ := placed
      obtain ⟨newNext, inNext⟩ := verifyOp_new first new inside
      -- both folds move the position of the new data in the same way
      have same : position = next.new := by
        rw [newNext]
        unfold placeNew at starts
        split at starts
        · next isNew =>
            split at starts
            · cases starts
              rw [if_pos isNew]
            · cases starts
        · next other =>
            cases starts
            rw [if_neg other]
      subst same
      obtain ⟨length, offset⟩ := small op List.mem_cons_self
      obtain ⟨code, encoded, codePositive, codeShort, decodes⟩ :=
        encodeOp_decodes (positive op List.mem_cons_self) length offset
      obtain ⟨bytes, encodedRest, restShort, counts, decoded⟩ :=
        ih next last newEnd inNext ends
          (fun other member => positive other (List.mem_cons_of_mem _ member))
          (fun other member => small other (List.mem_cons_of_mem _ member)) placedRest verifiedRest
      refine ⟨code ++ bytes, by simp [encodeOps, encoded, encodedRest], ?_, ?_, ?_⟩
      · simp only [List.length_append, List.length_cons]
        omega
      · intro fuel enough
        rw [List.length_append] at enough
        obtain ⟨fuel, rfl⟩ : ∃ less, fuel = less + 1 := ⟨fuel - 1, by omega⟩
        have counted := counts fuel (by omega)
        obtain ⟨byte, tail, split⟩ := List.exists_cons_of_length_pos
          (l := code ++ bytes) (by rw [List.length_append]; omega)
        rw [split, countAndVerifyInstructions, ← split, decodes bytes]
        · simp [verifyOp_bareOp, first, counted]
        · simp
      · rw [List.length_cons, decodeOps, decodes bytes]
        simp only [Option.bind_eq_bind, Option.bind_some, bareOp_actionCode]
        by_cases isNew : op.actionCode = .new
        · obtain ⟨actionCode, position, size⟩ := op
          simp only at isNew
          subst isNew
          simp only [placeNew, if_true] at starts
          split at starts
          · next consecutive =>
              rw [if_pos rfl] at newNext
              have added : sizeAdd reached.new size = next.new := by
                rw [newNext]
                exact sizeAdd_small (by dsimp only at newNext; omega)
              simp [bareOp, added, decoded, consecutive]
          · cases starts
        · rw [if_neg isNew] at newNext
          rw [if_neg isNew, ← newNext, decoded]
          simp [bareOp, isNew]

theorem positive_count {sviewLen : Nat} (ops : List TxdeltaOp) {reached last : Reached}
    (positive : ∀ op ∈ ops, 0 < op.length)
    (fits : ops.foldlM (advance sviewLen) reached = some last) :
    reached.target + ops.length ≤ last.target ∧ last.new + reached.target ≤ last.target + reached.new := by
  induction ops generalizing reached with
  | nil =>
      cases fits
      exact ⟨le_rfl, by omega⟩
  | cons op ops ih =>
      simp only [List.foldlM_cons, Option.bind_eq_bind, Option.bind_eq_some_iff] at fits
      obtain ⟨next, first, rest⟩ := fits
      have later := ih (fun other member => positive other (List.mem_cons_of_mem _ member)) rest
      have grows := advance_target first
      have bound := advance_new first
      have := positive op List.mem_cons_self
      rw [List.length_cons]
      omega

theorem decodeHeader_encoded {header : WindowHeader} {first second third fourth fifth : Bytes}
    (sviewOffset : encodeInt header.sviewOffset = some first)
    (sviewLen : encodeInt header.sviewLen = some second)
    (tviewLen : encodeInt header.tviewLen = some third)
    (inslen : encodeInt header.inslen = some fourth)
    (newlen : encodeInt header.newlen = some fifth) (rest : Bytes) :
    decodeHeader (first ++ second ++ third ++ fourth ++ fifth ++ rest) = some (header, rest) := by
  simp only [List.append_assoc, decodeHeader, decodeInt_encodeInt sviewOffset,
    decodeInt_encodeInt sviewLen, decodeInt_encodeInt tviewLen, decodeInt_encodeInt inslen,
    decodeInt_encodeInt newlen, Option.bind_eq_bind, Option.bind_some, Option.pure_def]

/-- The parser accepts a view that does not slide backwards. -/
structure DecodeState.Accepts (state : DecodeState) (sviewOffset sviewLen : Nat) : Prop where
  inBuffer : state.strayed = false
  forward : state.lastSviewOffset ≤ sviewOffset
  reaches : state.lastSviewOffset + state.lastSviewLen ≤ sviewOffset + sviewLen
  small : sviewOffset + sviewLen < 2 ^ 63

theorem DecodeState.Accepts.forward_view {state : DecodeState} {header : WindowHeader}
    (accepts : state.Accepts header.sviewOffset header.sviewLen) :
    ¬ negative header.sviewOffset ∧ ¬ SlidesBackward state header := by
  obtain ⟨-, forward, reaches, bound⟩ := accepts
  refine ⟨by simp only [negative]; omega, ?_⟩
  rw [SlidesBackward, sizeAdd_small (by omega), sizeAdd_small (by omega)]
  omega

/-- With the header read, the parser waits for the whole window. -/
theorem parseWindow_header {state : DecodeState} {header : WindowHeader} {buffer bytes : Bytes}
    (inBuffer : state.strayed = false) (nonnegative : ¬ negative header.sviewOffset)
    (accepted : ¬ SlidesBackward state header) (small : header.inslen + header.newlen < 2 ^ 64)
    (decoded : decodeHeader buffer = some (header, bytes)) :
    parseWindow state buffer =
      if bytes.length < header.inslen + header.newlen then .more
      else buildWindow header bytes := by
  simp only [parseWindow, inBuffer, Bool.false_eq_true, if_false, decoded, if_neg nonnegative,
    if_neg accepted, sizeAdd_small small]
  split
  · rfl
  · rw [if_neg (by omega)]

/-- A parser that has not seen the whole window waits. -/
theorem parseWindow_prefix {state : DecodeState} {header : WindowHeader}
    {code bytes front back : Bytes} (inBuffer : state.strayed = false)
    (nonnegative : ¬ negative header.sviewOffset) (accepted : ¬ SlidesBackward state header)
    (small : header.inslen + header.newlen < 2 ^ 64)
    (decoded : decodeHeader code = some (header, bytes))
    (length : bytes.length = header.inslen + header.newlen) (split : code = front ++ back)
    (unfinished : back ≠ []) : parseWindow state front = .more := by
  have backPositive : 0 < back.length := List.length_pos_iff.mpr unfinished
  cases read : decodeHeader front with
  | none => simp only [parseWindow, inBuffer, Bool.false_eq_true, if_false, read]
  | some result =>
      obtain ⟨other, rest⟩ := result
      -- the header of the prefix is the header of the whole window
      have extended := decodeHeader_append read back
      rw [← split, decoded] at extended
      simp only [Option.some.injEq, Prod.mk.injEq] at extended
      obtain ⟨rfl, rfl⟩ := extended
      rw [List.length_append] at length
      rw [parseWindow_header inBuffer nonnegative accepted small read, if_pos (by omega)]

/-- Every valid window is one frame for each state that accepts its view. -/
theorem encodeWindow_frame {window : TxdeltaWindow} (valid : Valid window) :
    ∃ code, encodeWindow window = some code ∧ code ≠ [] ∧ code.length < 2 ^ 64 ∧
      ∀ state : DecodeState, state.strayed = false → ¬ SlidesBackward state (headerOf window 0) →
        (∀ rest, parseWindow state (code ++ rest) =
          .item ⟨window.sviewOffset, window.sviewLen, false⟩ window rest) ∧
        ∀ front back, code = front ++ back → back ≠ [] → parseWindow state front = .more := by
  obtain ⟨few, positive, small, placed, newLen, accepted, offsetSmall, sviewSmall, tviewSmall,
    newSmall⟩ := valid
  obtain ⟨instructions, encodedOps, shortOps, _⟩ := encodeOps_decodes (headerOf window 0) newSmall
    window.ops ⟨0, 0⟩ _ _ (Nat.zero_le _) rfl positive small placed accepted
  -- the lengths of the header are those of the encoded parts
  set header : WindowHeader := ⟨window.sviewOffset, window.sviewLen, window.tviewLen,
    instructions.length, window.newLen⟩ with headerEq
  obtain ⟨_, sameOps, _, verified, decodedOps⟩ := encodeOps_decodes header newSmall
    window.ops ⟨0, 0⟩ _ _ (Nat.zero_le _) rfl positive small placed accepted
  rw [encodedOps] at sameOps
  cases sameOps
  have first := encodeInt_eq header.sviewOffset offsetSmall
  have second := encodeInt_eq header.sviewLen sviewSmall
  have third := encodeInt_eq header.tviewLen tviewSmall
  have fourth := encodeInt_eq header.inslen (by simp only [headerEq]; omega)
  have fifth := encodeInt_eq header.newlen newSmall
  have decodes := decodeHeader_encoded first second third fourth fifth
  generalize encodeBytes header.sviewOffset _ = firstBytes at first decodes
  generalize encodeBytes header.sviewLen _ = secondBytes at second decodes
  generalize encodeBytes header.tviewLen _ = thirdBytes at third decodes
  generalize encodeBytes header.inslen _ = fourthBytes at fourth decodes
  generalize encodeBytes header.newlen _ = fifthBytes at fifth decodes
  set prologue := firstBytes ++ secondBytes ++ thirdBytes ++ fourthBytes ++ fifthBytes
    with prologueEq
  have smallSum : header.inslen + header.newlen < 2 ^ 64 := by
    simp only [headerEq]
    omega
  refine ⟨prologue ++ instructions ++ window.newData, ?_, ?_, ?_, ?_⟩
  · simp only [headerEq, newLen] at first second third fourth fifth
    have written (bytes : Bytes) : (if 0 < bytes.length then [bytes] else []).flatten = bytes := by
      split
      · simp
      · next empty => simp [List.length_eq_zero_iff.mp (Nat.eq_zero_of_not_pos empty)]
    simp only [encodeWindow, encodeWrites, encodedOps, first, second, third, fourth, fifth,
      Option.bind_eq_bind, Option.bind_some, Option.pure_def, Option.map_some,
      List.flatten_append, List.flatten_singleton, newLen, List.take_length, written, prologueEq]
  · have nonempty := (encodeInt_length first).1
    apply List.ne_nil_of_length_pos
    simp only [prologueEq, List.length_append]
    omega
  · have one := (encodeInt_length first).2
    have two := (encodeInt_length second).2
    have three := (encodeInt_length third).2
    have four := (encodeInt_length fourth).2
    have five := (encodeInt_length fifth).2
    simp only [prologueEq, List.length_append]
    omega
  · intro state inBuffer forward
    have nonnegative : ¬ negative header.sviewOffset := not_le.mpr offsetSmall
    have accepted : ¬ SlidesBackward state header := forward
    refine ⟨?_, ?_⟩
    · intro rest
      have decoded : decodeHeader (prologue ++ instructions ++ window.newData ++ rest) =
          some (header, instructions ++ window.newData ++ rest) := by
        rw [List.append_assoc, List.append_assoc, decodes, List.append_assoc]
      rw [parseWindow_header inBuffer nonnegative accepted smallSum decoded, if_neg (by
        simp only [headerEq, List.length_append, newLen]
        omega)]
      have taken : (instructions ++ window.newData ++ rest).take header.inslen = instructions := by
        rw [List.append_assoc, headerEq, List.take_left' rfl]
      have dropped : (instructions ++ window.newData ++ rest).drop header.inslen =
          window.newData ++ rest := by
        rw [List.append_assoc, headerEq, List.drop_left' rfl]
      have kept : (window.newData ++ rest).take header.newlen = window.newData := by
        rw [headerEq, newLen, List.take_left' rfl]
      have left : (window.newData ++ rest).drop header.newlen = rest := by
        rw [headerEq, newLen, List.drop_left' rfl]
      have inside : ¬ (window.newData ++ rest).length < header.newlen := by
        simp only [headerEq, newLen, List.length_append]
        omega
      simp only [buildWindow, verifiedCount, taken, dropped, verified _ (Nat.lt_succ_self _), if_neg (not_le.mpr few),
        decodedOps, List.nil_append, kept, left, decide_eq_false inside]
      rfl
    · intro front back split unfinished
      have whole := decodes (instructions ++ window.newData)
      rw [← List.append_assoc] at whole
      exact parseWindow_prefix inBuffer nonnegative accepted smallSum whole
        (by rw [List.length_append, headerEq, newLen]) split unfinished

/-- Every window slides its source view forward from the view of the window before it. -/
def Forward : DecodeState → List TxdeltaWindow → Prop
  | _, [] => True
  | state, window :: windows =>
      ¬ SlidesBackward state (headerOf window 0) ∧
        Forward ⟨window.sviewOffset, window.sviewLen, false⟩ windows

/-- Valid windows that slide forward are a sequence of frames. -/
theorem forward_frames (windows : List TxdeltaWindow) :
    ∀ state : DecodeState, state.strayed = false → (∀ window ∈ windows, Valid window) →
      Forward state windows →
      ∃ bytes last, Frames parseWindow state bytes windows last ∧
        ∀ output closed, consumeAll windowHandler ⟨output, true, closed⟩
          (windows.map some ++ [none]) = (⟨output ++ bytes, true, true⟩, none) := by
  induction windows with
  | nil =>
      intro state inBuffer _ _
      refine ⟨[], state, Frames.nil state ?_, ?_⟩
      · simp [parseWindow, inBuffer, decodeHeader, decodeInt, decodeIntFrom]
      · intro output closed
        simp [consumeAll, windowHandler]
  | cons window windows ih =>
      intro state inBuffer valid forward
      obtain ⟨code, encoded, nonempty, -, frame⟩ :=
        encodeWindow_frame (valid window List.mem_cons_self)
      obtain ⟨complete, partly⟩ := frame state inBuffer forward.1
      obtain ⟨bytes, last, frames, writes⟩ := ih ⟨window.sviewOffset, window.sviewLen, false⟩ rfl
        (fun other member => valid other (List.mem_cons_of_mem _ member)) forward.2
      refine ⟨code ++ bytes, last, Frames.cons nonempty complete partly frames, ?_⟩
      intro output closed
      have written := writes (output ++ code) closed
      rw [List.append_assoc] at written
      simp only [List.map_cons, List.cons_append, consumeAll, windowHandler, if_true, encoded]
      exact written

/-- Instructions that fit the views pass the parser's checks. -/
theorem advance_verified (header : WindowHeader) (view : header.sviewLen < 2 ^ 63)
    (target : header.tviewLen < 2 ^ 63) (new : header.newlen < 2 ^ 63) (ops : List TxdeltaOp) :
    ∀ reached : Reached,
      ops.foldlM (advance header.sviewLen) reached = some ⟨header.tviewLen, header.newlen⟩ →
      ops.foldlM (verifyOp header) reached = some ⟨header.tviewLen, header.newlen⟩ ∧
        ops.foldlM placeNew reached.new = some header.newlen ∧
        ∀ op ∈ ops, op.length < 2 ^ 63 ∧ op.offset < 2 ^ 63 := by
  induction ops with
  | nil =>
      intro reached fits
      cases fits
      exact ⟨rfl, rfl, by simp⟩
  | cons op ops ih =>
      intro reached fits
      simp only [List.foldlM_cons, Option.bind_eq_bind, Option.bind_eq_some_iff] at fits
      obtain ⟨next, first, fitsRest⟩ := fits
      obtain ⟨inTarget, inNew⟩ := advance_mono ops fitsRest
      have placed : placeNew reached.new op = some next.new := by
        unfold advance at first
        unfold placeNew
        split at first <;> split at first <;> cases first <;> simp [*]
      obtain ⟨verified, placedRest, smallRest⟩ := ih next fitsRest
      refine ⟨?_, ?_, ?_⟩
      · rw [List.foldlM_cons, verifyOp_advance first view target new inTarget inNew]
        exact verified
      · rw [List.foldlM_cons, placed]
        exact placedRest
      · intro other member
        rcases List.mem_cons.mp member with rfl | member
        · exact advance_small (2 ^ 63) first view (lt_of_le_of_lt inTarget target)
            (lt_of_le_of_lt inNew new)
        · exact smallRest other member

/-- The windows of a delta stream are valid. -/
theorem encodable_valid {window : TxdeltaWindow} (encodable : window.Encodable) : Valid window := by
  obtain ⟨fits, positive, newLen, sview, tview⟩ := encodable
  simp only [streamChunkSize] at tview
  have counts := positive_count window.ops positive fits
  simp only at counts
  obtain ⟨verified, placed, small⟩ := advance_verified (headerOf window 0)
    (by simp only [headerOf]; omega) (by simp only [headerOf]; omega)
    (by simp only [headerOf]; omega) window.ops ⟨0, 0⟩ fits
  exact ⟨by omega, positive, small, placed, newLen, verified, by omega, by omega, by omega, by omega⟩

/-- The windows of a chain are valid and slide forward. -/
theorem rebuilds_forward {source : Bytes} {start stop : Nat} {windows : List TxdeltaWindow}
    {target : Bytes} (rebuilds : Rebuilds source start stop windows target) :
    (∀ window ∈ windows, Valid window) ∧
      ∀ state : DecodeState, state.strayed = false → state.lastSviewOffset ≤ start →
        state.lastSviewOffset + state.lastSviewLen ≤ stop → Forward state windows := by
  induction rebuilds with
  | nil start stop => exact ⟨by simp, fun _ _ _ _ => trivial⟩
  | @cons start stop window windows first rest encodable forward overlaps reaches inside applied
      tail ih =>
      obtain ⟨valid, forwardRest⟩ := ih
      refine ⟨?_, ?_⟩
      · intro other member
        rcases List.mem_cons.mp member with rfl | member
        · exact encodable_valid encodable
        · exact valid other member
      · intro state inBuffer before ends
        have accepts : state.Accepts (headerOf window 0).sviewOffset (headerOf window 0).sviewLen :=
          ⟨inBuffer, le_trans before forward, le_trans ends reaches, encodable.sview⟩
        exact ⟨accepts.forward_view.2, forwardRest _ rfl le_rfl le_rfl⟩

/-- The header bytes are chewed up in any chunking, and the parser sees only what follows. -/
theorem writeAll_header {B : Type} (handler : WindowHandler B) (chunks : List Bytes) :
    ∀ (baton : DecodeBaton B) (body : Bytes), baton.headerBytes ≤ 4 →
      chunks.flatten = svndiffHeader.drop baton.headerBytes ++ body →
      ∃ parts, parts.flatten = body ∧
        ∀ drain error, feedAll parseWindow (windowConsumer handler) baton.drain parts =
          (drain, error) → ∃ next, writeAll handler baton chunks = (next, error) ∧
            next.drain = drain ∧ next.errorOnEarlyClose = baton.errorOnEarlyClose ∧
            (error = none → next.headerBytes = 4) := by
  induction chunks with
  | nil =>
      intro baton body few whole
      obtain ⟨headerEmpty, bodyEmpty⟩ := List.append_eq_nil_iff.mp whole.symm
      have four : baton.headerBytes = 4 := by
        have := congrArg List.length headerEmpty
        simp [svndiffHeader] at this
        omega
      refine ⟨[], bodyEmpty.symm, ?_⟩
      intro drain error fed
      cases fed
      exact ⟨baton, rfl, rfl, rfl, fun _ => four⟩
  | cons chunk chunks ih =>
      intro baton body few whole
      set nheader := min (4 - baton.headerBytes) chunk.length with nheaderEq
      have headerLength : (svndiffHeader.drop baton.headerBytes).length =
          4 - baton.headerBytes := by simp [svndiffHeader]
      have matching : chunk.take nheader =
          (svndiffHeader.drop baton.headerBytes).take nheader := by
        have taken := congrArg (List.take nheader) whole
        rwa [List.flatten_cons, List.take_append_of_le_length (by omega),
          List.take_append_of_le_length (by omega)] at taken
      have remaining : chunk.drop nheader ++ chunks.flatten =
          svndiffHeader.drop (baton.headerBytes + nheader) ++ body := by
        have dropped := congrArg (List.drop nheader) whole
        rwa [List.flatten_cons, List.drop_append_of_le_length (by omega),
          List.drop_append_of_le_length (by omega), List.drop_drop] at dropped
      rcases fed : feed parseWindow (windowConsumer handler) baton.drain (chunk.drop nheader) with
        ⟨middle, failure⟩
      -- either the chunk is part of the header, or the header is complete
      obtain ⟨suffix, suffixEq⟩ : ∃ suffix, chunks.flatten =
          svndiffHeader.drop (baton.headerBytes + nheader) ++ suffix ∧
            chunk.drop nheader ++ suffix = body := by
        by_cases short : chunk.length ≤ nheader
        · rw [List.drop_eq_nil_of_le short, List.nil_append] at remaining
          exact ⟨body, remaining, by rw [List.drop_eq_nil_of_le short, List.nil_append]⟩
        · have complete : svndiffHeader.drop (baton.headerBytes + nheader) = [] := by
            apply List.drop_eq_nil_of_le
            simp only [svndiffHeader, List.length_cons, List.length_nil]
            omega
          rw [complete, List.nil_append] at remaining
          exact ⟨chunks.flatten, by rw [complete, List.nil_append], remaining⟩
      obtain ⟨parts, flat, continues⟩ := ih ⟨middle, baton.headerBytes + nheader,
        baton.errorOnEarlyClose⟩ suffix (by simp only; omega) suffixEq.1
      refine ⟨chunk.drop nheader :: parts, by rw [List.flatten_cons, flat, suffixEq.2], ?_⟩
      intro drain error fedAll
      simp only [feedAll, fed] at fedAll
      simp only [writeAll, writeHandler, ← nheaderEq, matching, ne_eq, not_true_eq_false, if_false,
        fed]
      cases failure with
      | some failure =>
          cases fedAll
          exact ⟨_, rfl, rfl, rfl, fun none => by cases none⟩
      | none => exact continues drain error fedAll

end Subversion.Svndiff
