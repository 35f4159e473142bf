/-
This file shows that a delta survives its way through the svndiff format in any chunks.
-/

import Subversion.Delta.Svndiff

namespace Subversion.Svndiff

open Framing Delta

/-- A stream position is an `apr_off_t`, so a stream has fewer than 2^63 bytes. -/
structure StreamContents where
  bytes : Bytes
  addressable : bytes.length < 2 ^ 63

/-- The delta between the two streams is sent to the encoder. -/
def svndiffOf (source target : Bytes) : EncoderBaton × Option SvnError :=
  txdeltaSendTxstream windowHandler (target.length + 1) (txdelta source target) txdeltaToSvndiff

/-- The chunks are written to the parser, which feeds the applier, and the parser is closed. -/
def applySvndiff (source : Bytes) (errorOnEarlyClose : Bool) (chunks : List Bytes) :
    ApplyBaton × Option SvnError :=
  match writeAll applyWindow (txdeltaParseSvndiff (txdeltaApply source) errorOnEarlyClose)
      chunks with
  | (baton, some error) => (baton.drain.baton, some error)
  | (baton, none) => closeHandler applyWindow baton

/-- The windows and the end mark are sent to the encoder one after the other. -/
def encodeSvndiff (windows : List TxdeltaWindow) : EncoderBaton × Option SvnError :=
  consumeAll windowHandler txdeltaToSvndiff (windows.map some ++ [none])

/-- The chunks are written to a parser that feeds the handler, and the parser is closed. -/
def decodeSvndiff {B : Type} (handler : WindowHandler B) (handlerBaton : B)
    (errorOnEarlyClose : Bool) (chunks : List Bytes) : B × Option SvnError :=
  match writeAll handler (txdeltaParseSvndiff handlerBaton errorOnEarlyClose) chunks with
  | (baton, some error) => (baton.drain.baton, some error)
  | (baton, none) => closeHandler handler baton

theorem applySvndiff_eq (source : Bytes) (errorOnEarlyClose : Bool) (chunks : List Bytes) :
    applySvndiff source errorOnEarlyClose chunks =
      decodeSvndiff applyWindow (txdeltaApply source) errorOnEarlyClose chunks := by
  unfold applySvndiff decodeSvndiff
  rcases writeAll applyWindow (txdeltaParseSvndiff (txdeltaApply source) errorOnEarlyClose)
    chunks with ⟨baton, _ | error⟩ <;> rfl

/-- The parser hands the consumer what the encoder received, except for the end mark. -/
theorem consumeAll_windowConsumer {B : Type} (handler : WindowHandler B)
    (windows : List TxdeltaWindow) (baton final : B)
    (consumed : consumeAll handler baton (windows.map some ++ [none]) = (final, none)) :
    ∃ middle, consumeAll (windowConsumer handler) baton windows = (middle, none) ∧
      handler middle none = (final, none) := by
  induction windows generalizing baton with
  | nil =>
      refine ⟨baton, rfl, ?_⟩
      simp only [List.map_nil, List.nil_append, consumeAll] at consumed
      rcases handled : handler baton none with ⟨after, _ | error⟩
      · simpa [handled] using consumed
      · simp [handled] at consumed
  | cons window windows ih =>
      simp only [List.map_cons, List.cons_append, consumeAll] at consumed
      rcases handled : handler baton (some window) with ⟨after, _ | error⟩
      · simp only [handled] at consumed
        obtain ⟨middle, passed, ended⟩ := ih after consumed
        exact ⟨middle, by simp only [consumeAll, windowConsumer, handled]; exact passed, ended⟩
      · simp [handled] at consumed

/-- The first call of the encoder adds the header. -/
theorem encodeSvndiff_forward {windows : List TxdeltaWindow}
    (valid : ∀ window ∈ windows, Valid window) (forward : Forward ⟨0, 0, false⟩ windows) :
    ∃ bytes last, Frames parseWindow ⟨0, 0, false⟩ bytes windows last ∧
      encodeSvndiff windows = (⟨svndiffHeader ++ bytes, true, true⟩, none) := by
  obtain ⟨bytes, last, frames, writes⟩ := forward_frames windows ⟨0, 0, false⟩ rfl valid forward
  refine ⟨bytes, last, frames, ?_⟩
  rw [encodeSvndiff, ← writes svndiffHeader false]
  cases windows <;> rfl

/-- The header is checked in any chunking, and the framed windows reach the handler in order. -/
theorem decodeSvndiff_frames {B : Type} (handler : WindowHandler B) {handlerBaton final : B}
    (errorOnEarlyClose : Bool) {windows : List TxdeltaWindow} {bytes : Bytes} {last : DecodeState}
    (frames : Frames parseWindow ⟨0, 0, false⟩ bytes windows last) {chunks : List Bytes}
    (cut : chunks.flatten = svndiffHeader ++ bytes)
    (consumed : consumeAll handler handlerBaton (windows.map some ++ [none]) = (final, none)) :
    decodeSvndiff handler handlerBaton errorOnEarlyClose chunks = (final, none) := by
  obtain ⟨middle, passed, ended⟩ := consumeAll_windowConsumer handler windows _ _ consumed
  obtain ⟨parts, flat, follows⟩ := writeAll_header handler chunks
    (txdeltaParseSvndiff handlerBaton errorOnEarlyClose) bytes (Nat.zero_le _) cut
  rcases feedAll_frames (windowConsumer handler) parts [] handlerBaton
      (by rw [List.nil_append, flat]; exact frames)
      (by simp [parseWindow, decodeHeader, decodeInt, decodeIntFrom]) with
    ⟨_, _, _, failed⟩ | ⟨after, consumed, fed⟩
  · rw [passed] at failed
    cases failed
  · rw [passed] at consumed
    cases consumed
    obtain ⟨next, wrote, drained, early, complete⟩ := follows _ _ fed
    have four := complete rfl
    simp only [decodeSvndiff, wrote, closeHandler, drained, four, lt_irrefl, ne_eq,
      not_true_eq_false, or_self, and_false, if_false]
    exact ended

/-- Every chunking of the encoded delta rebuilds the target without an error. -/
theorem applySvndiff_svndiffOf (source : StreamContents) (target : Bytes)
    (errorOnEarlyClose : Bool) (chunks : List Bytes)
    (cut : chunks.flatten = (svndiffOf source.bytes target).1.output) :
    (svndiffOf source.bytes target).2 = none ∧
      ∃ final, applySvndiff source.bytes errorOnEarlyClose chunks = (final, none) ∧
        final.target = target ∧ final.closed = true := by
  obtain ⟨windows, rebuilds, sends⟩ := txdeltaSendTxstream_windows source.addressable
    target.length (txdelta source.bytes target) 0 le_rfl (txdelta_reading source.bytes target)
    (Nat.zero_le _)
  obtain ⟨valid, forward⟩ := rebuilds_forward rebuilds
  obtain ⟨bytes, last, frames, encoded⟩ :=
    encodeSvndiff_forward valid (forward _ rfl le_rfl le_rfl)
  have sent : svndiffOf source.bytes target = (⟨svndiffHeader ++ bytes, true, true⟩, none) := by
    rw [svndiffOf, sends windowHandler _ _ (Nat.lt_succ_self _)]
    exact encoded
  rw [sent] at cut
  obtain ⟨final, applied, written, closed⟩ := applyWindow_rebuilds rebuilds
    (txdeltaApply source.bytes) (txdeltaApply_viewing source.bytes) le_rfl
  refine ⟨by rw [sent], final, ?_, written, closed⟩
  rw [applySvndiff_eq]
  exact decodeSvndiff_frames applyWindow errorOnEarlyClose frames cut applied

/-- A delta that copies from the source and from the target, read back in three chunks. -/
theorem applySvndiff_svndiffOf_three_chunks :
    let source : StreamContents := ⟨[1, 2, 3, 4, 5], by decide⟩
    let target : Bytes := [1, 2, 3, 4, 9, 9, 9, 9, 9, 9]
    let output := (svndiffOf source.bytes target).1.output
    (svndiffOf source.bytes target).2 = none ∧
      ∃ final, applySvndiff source.bytes true
        [output.take 2, (output.drop 2).take 5, output.drop 7] = (final, none) ∧
        final.target = target ∧ final.closed = true :=
  applySvndiff_svndiffOf ⟨[1, 2, 3, 4, 5], by decide⟩ [1, 2, 3, 4, 9, 9, 9, 9, 9, 9] true _
    (by decide)

/-- This handler notes every call it receives. -/
def noteCall : WindowHandler (List (Option TxdeltaWindow)) := fun calls window =>
  (calls ++ [window], none)

theorem consumeAll_noteCall (calls : List (Option TxdeltaWindow)) :
    ∀ noted, consumeAll noteCall noted calls = (noted ++ calls, none) := by
  induction calls with
  | nil =>
      intro noted
      rw [List.append_nil]
      rfl
  | cons call calls ih =>
      intro noted
      rw [consumeAll, noteCall]
      dsimp only
      rw [ih, List.append_assoc]
      rfl

/-- The parser delivers the encoded windows unchanged, and then the end mark. -/
theorem decodeSvndiff_encodeSvndiff (windows : List TxdeltaWindow)
    (valid : ∀ window ∈ windows, Valid window) (forward : Forward ⟨0, 0, false⟩ windows)
    (errorOnEarlyClose : Bool) (chunks : List Bytes)
    (cut : chunks.flatten = (encodeSvndiff windows).1.output) :
    (encodeSvndiff windows).2 = none ∧
      decodeSvndiff noteCall [] errorOnEarlyClose chunks = (windows.map some ++ [none], none) := by
  obtain ⟨bytes, last, frames, encoded⟩ := encodeSvndiff_forward valid forward
  rw [encoded] at cut
  refine ⟨by rw [encoded], ?_⟩
  apply decodeSvndiff_frames noteCall errorOnEarlyClose frames cut
  rw [consumeAll_noteCall, List.nil_append]

/-- Lengths of 63 and 64 lie on both sides of the limit for a length in the selector's byte. -/
theorem decodeSvndiff_encodeSvndiff_lengths :
    let windows : List TxdeltaWindow :=
      [⟨0, 4, 269, [⟨.new, 0, 64⟩, ⟨.source, 0, 4⟩, ⟨.target, 10, 200⟩, ⟨.new, 64, 1⟩],
        List.replicate 65 7, 65⟩, ⟨2, 2, 63, [⟨.new, 0, 63⟩], List.replicate 63 1, 63⟩]
    (encodeSvndiff windows).2 = none ∧
      decodeSvndiff noteCall [] true [(encodeSvndiff windows).1.output] =
        (windows.map some ++ [none], none) := by
  intro windows
  have valid : ∀ window ∈ windows, Valid window := by
    intro window member
    simp only [windows, List.mem_cons, List.not_mem_nil, or_false] at member
    rcases member with rfl | rfl
    · exact ⟨by decide, by decide, by decide, rfl, by simp, by decide, by decide,
        by decide, by decide, by decide⟩
    · exact ⟨by decide, by decide, by decide, rfl, by simp, by decide, by decide,
        by decide, by decide, by decide⟩
  exact decodeSvndiff_encodeSvndiff windows valid ⟨by decide, by decide, trivial⟩ true _ (by simp)

/-- The whole string is one new-data instruction, even when it is empty. -/
def stringWindow (string : Bytes) : TxdeltaWindow :=
  ⟨0, 0, string.length, [⟨.new, 0, string.length⟩], string, string.length⟩

def txdeltaSendString {B : Type} (handler : WindowHandler B) (string : Bytes) (baton : B) :
    B × Option SvnError :=
  consumeAll handler baton [some (stringWindow string), none]

theorem stringWindow_valid {string : StreamContents} (nonempty : string.bytes ≠ []) :
    Valid (stringWindow string.bytes) := by
  have positive : 0 < string.bytes.length := List.length_pos_iff.mpr nonempty
  have addressable := string.addressable
  have room : sizeSub string.bytes.length 0 = string.bytes.length :=
    sizeSub_small (Nat.zero_le _) (by omega)
  have reaches : sizeAdd 0 string.bytes.length = string.bytes.length := by
    rw [sizeAdd_small (by omega), Nat.zero_add]
  have nonnegative : ¬ negative string.bytes.length := not_le.mpr addressable
  exact {
    few := by simp [stringWindow]
    positive := by simpa [stringWindow] using positive
    small := by simpa [stringWindow] using addressable
    placed := by simp [stringWindow, placeNew]
    newLen := rfl
    verified := by simp [stringWindow, headerOf, verifyOp, room, reaches, nonnegative]
    sviewOffset := by simp [stringWindow]
    sviewLen := by simp [stringWindow]
    tviewLen := addressable
    newSmall := addressable }

/-- The applier reads nothing from the source, and it writes the string. -/
theorem applyWindow_stringWindow (source : Bytes) (string : StreamContents) :
    ∃ final, consumeAll applyWindow (txdeltaApply source) [some (stringWindow string.bytes), none] =
      (final, none) ∧ final.target = string.bytes := by
  have nonnegative : ¬ negative string.bytes.length := not_le.mpr string.addressable
  have zero : ¬ negative 0 := by decide
  have applied : applyInstructions (stringWindow string.bytes) [] = some string.bytes := by
    simp [applyInstructions, stringWindow, applyOp, nonnegative, zero, SelfCopy.slice]
  have unread : readSource (slideSource (txdeltaApply source) (stringWindow string.bytes))
      (stringWindow string.bytes) = (txdeltaApply source, none) := rfl
  refine ⟨⟨source, string.bytes, true, [], 0, 0⟩, ?_, rfl⟩
  simp only [consumeAll, applyWindow, unread]
  simp [stringWindow, txdeltaApply] at applied ⊢
  simp [applied, zero]

/-- The encoded instruction of an empty string says that its length follows, and nothing does. -/
theorem encodeSvndiff_empty :
    txdeltaSendString windowHandler [] txdeltaToSvndiff =
      (⟨svndiffHeader ++ [0, 0, 0, 1, 0, 128], true, true⟩, none) := by decide

theorem parseWindow_empty :
    Course parseWindow ⟨0, 0, false⟩ [0, 0, 0, 1, 0, 128] []
      (.stops ⟨.svndiffInvalidOps, "svndiff contains invalid instructions"⟩) := by
  have decoded (more : Bytes) : decodeHeader ([0, 0, 0, 1, 0, 128] ++ more) =
      some (⟨0, 0, 0, 1, 0⟩, 128 :: more) := rfl
  have forward : ¬ SlidesBackward ⟨0, 0, false⟩ ⟨0, 0, 0, 1, 0⟩ := by decide
  show Course parseWindow ⟨0, 0, false⟩ ([0, 0, 0, 1, 0, 128] ++ []) [] _
  apply Course.stops
  · simp
  · intro more
    rw [parseWindow_header rfl (by decide) forward (by decide) (decoded more)]
    have invalid : verifiedCount ⟨0, 0, 0, 1, 0⟩ (128 :: more) = none := rfl
    simp [buildWindow, invalid]
  · intro front back split unfinished
    exact parseWindow_prefix rfl (by decide) forward (by decide) (decoded []) rfl
      (by rw [List.append_nil]; exact split) unfinished

/-- A string survives the encoder, the parser, and the applier exactly when it is not empty. -/
theorem applySvndiff_sendString_iff (string : StreamContents) (source : Bytes)
    (errorOnEarlyClose : Bool) (chunks : List Bytes)
    (cut : chunks.flatten =
      (txdeltaSendString windowHandler string.bytes txdeltaToSvndiff).1.output) :
    ((txdeltaSendString windowHandler string.bytes txdeltaToSvndiff).2 = none ∧
      ∃ final, applySvndiff source errorOnEarlyClose chunks = (final, none) ∧
        final.target = string.bytes) ↔ string.bytes ≠ [] := by
  constructor
  · intro ⟨_, final, applied, _⟩ empty
    rw [empty, encodeSvndiff_empty] at cut
    obtain ⟨parts, flat, follows⟩ := writeAll_header applyWindow chunks
      (txdeltaParseSvndiff (txdeltaApply source) errorOnEarlyClose) [0, 0, 0, 1, 0, 128]
      (Nat.zero_le _) cut
    have settles := feedAll_course (windowConsumer applyWindow) parts [] (txdeltaApply source)
      (by rw [List.nil_append, flat]; exact parseWindow_empty)
      (by simp [parseWindow, decodeHeader, decodeInt, decodeIntFrom])
    obtain ⟨next, wrote, -⟩ := follows _
      (some ⟨.svndiffInvalidOps, "svndiff contains invalid instructions"⟩) (Prod.ext rfl settles.2)
    simp [applySvndiff, wrote] at applied
  · intro nonempty
    have valid : ∀ window ∈ [stringWindow string.bytes], Valid window := by
      intro window member
      rw [List.mem_singleton.mp member]
      exact stringWindow_valid nonempty
    obtain ⟨bytes, last, frames, encoded⟩ := encodeSvndiff_forward valid
      ⟨by simp [SlidesBackward, headerOf, stringWindow, sizeAdd], trivial⟩
    have sent : txdeltaSendString windowHandler string.bytes txdeltaToSvndiff =
        (⟨svndiffHeader ++ bytes, true, true⟩, none) := encoded
    rw [sent] at cut
    obtain ⟨final, consumed, written⟩ := applyWindow_stringWindow source string
    refine ⟨by rw [sent], final, ?_, written⟩
    rw [applySvndiff_eq]
    exact decodeSvndiff_frames applyWindow errorOnEarlyClose frames cut consumed

theorem applySvndiff_sendString_one_byte :
    ((txdeltaSendString windowHandler [65] txdeltaToSvndiff).2 = none ∧
      ∃ final, applySvndiff [1, 2] true
        [(txdeltaSendString windowHandler [65] txdeltaToSvndiff).1.output] = (final, none) ∧
        final.target = [65]) ↔ [65] ≠ ([] : Bytes) :=
  applySvndiff_sendString_iff ⟨[65], by decide⟩ [1, 2] true _ (by simp)

/-- The empty string is sent, and the parser refuses it. -/
theorem empty_string_is_refused :
    (txdeltaSendString windowHandler [] txdeltaToSvndiff).2 = none ∧
      (applySvndiff [] true
        [(txdeltaSendString windowHandler [] txdeltaToSvndiff).1.output]).2 =
        some ⟨.svndiffInvalidOps, "svndiff contains invalid instructions"⟩ := by
  decide

end Subversion.Svndiff
