/-
This file models the delta stream that produces windows and the handler that applies them.
-/

import Subversion.Lib.Framing
import Subversion.Delta.Vdelta

namespace Subversion.Delta

open SelfCopy Framing

def streamChunkSize : Nat := 102400

/-- A read returns the requested length unless the stream ends first. -/
def streamRead (stream : Bytes) (len : Nat) : Bytes × Bytes := (stream.take len, stream.drop len)

/-- `source` and `target` are the unread bytes, and `context` is the input of the MD5 digest. -/
structure TxdeltaStream where
  source : Bytes
  target : Bytes
  more : Bool
  pos : Nat
  saved : Bytes
  context : Bytes
  digest : Option Bytes
  deriving DecidableEq, Repr

def txdelta (source target : Bytes) : TxdeltaStream := ⟨source, target, true, 0, [], [], none⟩

/-- The views and the lengths of the window are filled in by the caller. -/
def makeWindow (baton : BuildOps) : TxdeltaWindow :=
  ⟨0, 0, 0, baton.ops, baton.newData, baton.newData.length⟩

def txdeltaNextWindow (stream : TxdeltaStream) :
    Except SvnError (Option TxdeltaWindow × TxdeltaStream) :=
  if stream.more then
    -- without saved data, an extra half window is read to get things started
    let wanted := if stream.saved = [] then streamChunkSize + streamChunkSize / 2 else streamChunkSize
    let (fresh, sourceRest) := streamRead stream.source wanted
    let (target, targetRest) := streamRead stream.target streamChunkSize
    let view := stream.saved ++ fresh
    let next := { stream with
      source := sourceRest
      target := targetRest
      pos := stream.pos + fresh.length
      context := stream.context ++ fresh }
    if target = [] then .ok (none, { next with more := false })
    else
      match txdeltaVdelta (view ++ target) view.length target.length with
      | none => .error SvnError.assertion
      | some baton =>
          let window := { makeWindow baton with
            sviewOffset := next.pos - view.length
            sviewLen := view.length
            tviewLen := target.length }
          let savedLen := if view.length < streamChunkSize then view.length else streamChunkSize
          .ok (some window, { next with saved := view.drop (view.length - savedLen) })
  else .ok (none, { stream with digest := some stream.context })

/-- An MD5 digest has sixteen bytes. -/
abbrev Digest := Vector UInt8 16

/-- The field keeps what its memory held before until the digest is calculated. -/
def txdeltaMd5Digest (md5 : Bytes → Digest) (memory : Digest) (stream : TxdeltaStream) :
    Option Digest :=
  if stream.more then none else some (stream.digest.elim memory md5)

/-- A handler receives each window, and `none` after the last one. -/
abbrev WindowHandler (B : Type) := Consumer B (Option TxdeltaWindow) SvnError

/-- Each unit of fuel sends one window to the handler. -/
def txdeltaSendTxstream {B : Type} (handler : WindowHandler B) :
    Nat → TxdeltaStream → B → B × Option SvnError
  | 0, _, baton => (baton, none)
  | fuel + 1, stream, baton =>
      match txdeltaNextWindow stream with
      | .error error => (baton, some error)
      | .ok (window, next) =>
          match handler baton window with
          | (after, some error) => (after, some error)
          | (after, none) =>
              if window = none then (after, none) else txdeltaSendTxstream handler fuel next after

/-- `sbuf` holds the view of the last window, and `target` the bytes written so far. -/
structure ApplyBaton where
  source : Bytes
  target : Bytes
  closed : Bool
  sbuf : Bytes
  sbufSize : Nat
  sbufOffset : Nat
  deriving DecidableEq, Repr

def txdeltaApply (source : Bytes) : ApplyBaton := ⟨source, [], false, [], 0, 0⟩

/-- The buffer at least doubles when the view does not fit. -/
def sizeBuffer (size viewLen : Nat) : Nat :=
  if size < viewLen then if size * 2 < viewLen then viewLen else size * 2 else size

/-- The part of the old view that overlaps the new one moves to the start of the buffer. -/
def slideSource (baton : ApplyBaton) (window : TxdeltaWindow) : ApplyBaton :=
  if window.sviewOffset ≠ baton.sbufOffset ∨ baton.sbufSize < window.sviewLen then
    { baton with
      sbufSize := sizeBuffer baton.sbufSize window.sviewLen
      sbuf := if window.sviewOffset < baton.sbufOffset + baton.sbuf.length then
          baton.sbuf.drop (window.sviewOffset - baton.sbufOffset)
        else []
      sbufOffset := window.sviewOffset }
  else baton

/-- The remainder of the source view is read into the buffer. -/
def readSource (baton : ApplyBaton) (window : TxdeltaWindow) : ApplyBaton × Option SvnError :=
  if baton.sbuf.length < window.sviewLen then
    let len := window.sviewLen - baton.sbuf.length
    let (bytes, rest) := streamRead baton.source len
    if bytes.length ≠ len then
      ({ baton with source := rest },
        some ⟨.incompleteData, "Delta source ended unexpectedly"⟩)
    else ({ baton with source := rest, sbuf := baton.sbuf ++ bytes }, none)
  else (baton, none)

/-- The handler destroys its pool with the last call, so a later call has no meaning. -/
def applyWindow : WindowHandler ApplyBaton := fun baton window =>
  if baton.closed then (baton, some SvnError.undefinedBehaviour)
  else
    match window with
    | none => ({ baton with closed := true }, none)
    | some window =>
        if negative window.sviewOffset ∨ window.sviewOffset < baton.sbufOffset ∨
            (window.sviewOffset + window.sviewLen) % 2 ^ 64 <
              (baton.sbufOffset + baton.sbuf.length) % 2 ^ 64 then
          (baton, some SvnError.assertion)
        else
          match readSource (slideSource baton window) window with
          | (next, some error) => (next, some error)
          | (next, none) =>
              match applyInstructions window next.sbuf with
              | none => (next, some SvnError.assertion)
              | some tbuf => ({ next with target := next.target ++ tbuf }, none)

/-- The parts of a window that an encoder and an applier rely on. -/
structure TxdeltaWindow.Encodable (window : TxdeltaWindow) : Prop where
  fits : window.Fits
  positive : ∀ op ∈ window.ops, 0 < op.length
  newLen : window.newLen = window.newData.length
  sview : window.sviewOffset + window.sviewLen < 2 ^ 63
  tview : window.tviewLen ≤ streamChunkSize

/-- The windows slide forward over the source without a gap and rebuild the target. -/
inductive Rebuilds (source : Bytes) : Nat → Nat → List TxdeltaWindow → Bytes → Prop where
  | nil (start stop : Nat) : Rebuilds source start stop [] []
  | cons {start stop : Nat} {window : TxdeltaWindow} {windows : List TxdeltaWindow}
      {first rest : Bytes} (encodable : window.Encodable)
      (forward : start ≤ window.sviewOffset) (overlaps : window.sviewOffset ≤ stop)
      (reaches : stop ≤ window.sviewOffset + window.sviewLen)
      (inside : window.sviewOffset + window.sviewLen ≤ source.length)
      (applied : applyInstructions window
        ((source.drop window.sviewOffset).take window.sviewLen) = some first)
      (tail : Rebuilds source window.sviewOffset (window.sviewOffset + window.sviewLen)
        windows rest) :
      Rebuilds source start stop (window :: windows) (first ++ rest)

/-- The stream has read the source up to `pos` and keeps its last bytes. -/
structure TxdeltaStream.Reading (stream : TxdeltaStream) (source : Bytes) : Prop where
  more : stream.more = true
  inside : stream.pos ≤ source.length
  unread : stream.source = source.drop stream.pos
  short : stream.saved.length ≤ stream.pos
  saved : stream.saved = (source.drop (stream.pos - stream.saved.length)).take stream.saved.length

theorem txdelta_reading (source target : Bytes) : (txdelta source target).Reading source := by
  constructor <;> simp [txdelta]

/-- Saved bytes and the bytes read after them are one range of the source. -/
theorem saved_append (source : Bytes) {start stop : Nat} (count : Nat) (le : start ≤ stop) :
    (source.drop start).take (stop - start) ++ (source.drop stop).take count =
      (source.drop start).take (stop - start + count) := by
  rw [List.take_add, List.drop_drop, Nat.add_sub_cancel' le]

/-- The suffix of a range of the source is a range again. -/
theorem range_drop {source : Bytes} {start length keep : Nat} (le : keep ≤ length) :
    ((source.drop start).take length).drop (length - keep) =
      (source.drop (start + length - keep)).take keep := by
  rw [List.drop_take, List.drop_drop, Nat.sub_sub_self le]
  congr 2
  omega

/-- The instructions rebuild the target, whatever window carries them. -/
theorem emitted_applies {view target : Bytes} {baton : BuildOps}
    (emitted : Emitted view target baton target.length) (offset : Nat)
    (viewSmall : view.length < 2 ^ 63) (targetSmall : target.length < 2 ^ 63) :
    applyInstructions ⟨offset, view.length, target.length, baton.ops, baton.newData,
      baton.newData.length⟩ view = some target := by
  have folded := emitted.rebuilds ⟨offset, view.length, target.length, baton.ops, baton.newData,
    baton.newData.length⟩ ⟨rfl, rfl, List.prefix_rfl, rfl, viewSmall, targetSmall⟩
  rw [List.take_length] at folded
  unfold applyInstructions
  dsimp only
  rw [folded]
  simp

theorem txdeltaNextWindow_end {stream : TxdeltaStream} (more : stream.more = true)
    (ended : stream.target = []) : ∃ next, txdeltaNextWindow stream = .ok (none, next) := by
  unfold txdeltaNextWindow
  rw [if_pos more]
  simp [streamRead, ended]

/-- Each call takes one chunk of the target and delimits the view for it. -/
theorem txdeltaNextWindow_window {stream : TxdeltaStream} {source : Bytes}
    (reading : stream.Reading source)
    (small : source.length < 2 ^ 63 ∨ stream.pos + 2 * streamChunkSize < 2 ^ 63)
    (unfinished : stream.target ≠ []) :
    ∃ window next, txdeltaNextWindow stream = .ok (some window, next) ∧
      next.Reading source ∧ window.Encodable ∧
      next.target = stream.target.drop streamChunkSize ∧
      window.sviewOffset = stream.pos - stream.saved.length ∧ stream.pos ≤ next.pos ∧
      window.sviewOffset + window.sviewLen = next.pos ∧
      window.sviewOffset ≤ next.pos - next.saved.length ∧
      applyInstructions window ((source.drop window.sviewOffset).take window.sviewLen) =
        some (stream.target.take streamChunkSize) := by
  obtain ⟨more, inside, unread, short, saved⟩ := reading
  set wanted := if stream.saved = [] then streamChunkSize + streamChunkSize / 2
    else streamChunkSize with wantedEq
  set fresh := stream.source.take wanted with freshEq
  set view := stream.saved ++ fresh with viewEq
  set target := stream.target.take streamChunkSize with targetEq
  have freshLength : fresh.length ≤ source.length - stream.pos := by
    rw [freshEq, unread]
    simp
  have freshShort : fresh.length ≤ 2 * streamChunkSize := by
    have : fresh.length ≤ wanted := by simp [freshEq]
    simp only [streamChunkSize] at *
    split at wantedEq <;> omega
  have viewLength : view.length = stream.saved.length + fresh.length := by simp [viewEq]
  have targetLength : target.length ≤ streamChunkSize := by simp [targetEq]
  have targetSome : target ≠ [] := by
    simp [targetEq, streamChunkSize, unfinished]
  -- the view is the range of the source that ends at the new position
  have viewRange : view = (source.drop (stream.pos - stream.saved.length)).take view.length := by
    have freshRange : fresh = (source.drop stream.pos).take fresh.length := by
      rw [freshEq, unread, List.take_eq_take_iff]
      simp
    rw [viewLength]
    conv_lhs => rw [viewEq, saved, freshRange]
    have joined := saved_append source fresh.length
      (Nat.sub_le stream.pos stream.saved.length)
    rwa [Nat.sub_sub_self short] at joined
  obtain ⟨baton, generated, emitted⟩ := txdeltaVdelta_emits view target
  have offset : stream.pos + fresh.length - view.length = stream.pos - stream.saved.length := by
    omega
  have targetSmall : target.length < 2 ^ 63 := lt_of_le_of_lt targetLength (by decide)
  have keepLe : (if view.length < streamChunkSize then view.length else streamChunkSize) ≤
      view.length := by
    split <;> omega
  refine ⟨⟨stream.pos + fresh.length - view.length, view.length, target.length, baton.ops,
      baton.newData, baton.newData.length⟩,
    { stream with
      source := stream.source.drop wanted
      target := stream.target.drop streamChunkSize
      pos := stream.pos + fresh.length
      context := stream.context ++ fresh
      saved := view.drop (view.length -
        if view.length < streamChunkSize then view.length else streamChunkSize) },
    ?_, ?_, ?_, rfl, offset, by simp, by simp only; omega, ?_, ?_⟩
  · unfold txdeltaNextWindow
    simp only [more, if_true, streamRead, ← wantedEq, ← freshEq, ← viewEq, ← targetEq,
      if_neg targetSome, generated, makeWindow]
  · have keptLength : (view.drop (view.length -
        if view.length < streamChunkSize then view.length else streamChunkSize)).length =
        if view.length < streamChunkSize then view.length else streamChunkSize := by
      rw [List.length_drop]
      omega
    refine ⟨more, by simp only; omega, ?_, by simp only [keptLength]; omega, ?_⟩
    · simp only [unread, List.drop_drop]
      rw [freshEq, unread]
      simp only [List.length_take, List.length_drop]
      rcases le_total wanted (source.length - stream.pos) with le | ge
      · rw [min_eq_left le]
      · rw [min_eq_right ge, List.drop_eq_nil_of_le (by omega), List.drop_eq_nil_of_le (by omega)]
    · simp only [keptLength]
      conv_lhs => rw [viewRange]
      rw [List.length_take_of_le (by rw [List.length_drop]; omega), range_drop keepLe]
      congr 2
      omega
  · refine ⟨?_, emitted.positive, rfl, by simp only; omega, targetLength⟩
    exact emitted.fits
  · simp only [List.length_drop]
    omega
  · simp only [offset, ← viewRange]
    exact emitted_applies emitted _ (by omega) targetSmall

/-- The stream sends windows that rebuild the target, and then the end mark. -/
theorem txdeltaSendTxstream_windows {source : Bytes} (small : source.length < 2 ^ 63) :
    ∀ (count : Nat) (stream : TxdeltaStream) (start : Nat), stream.target.length ≤ count →
      stream.Reading source → start ≤ stream.pos - stream.saved.length →
      ∃ windows, Rebuilds source start stream.pos windows stream.target ∧
        ∀ {B : Type} (handler : WindowHandler B) (fuel : Nat) (baton : B), count < fuel →
          txdeltaSendTxstream handler fuel stream baton =
            consumeAll handler baton (windows.map some ++ [none]) := by
  intro count
  induction count with
  | zero =>
      intro stream start short reading before
      have ended : stream.target = [] := List.length_eq_zero_iff.mp (by omega)
      obtain ⟨next, produced⟩ := txdeltaNextWindow_end reading.more ended
      refine ⟨[], ended ▸ Rebuilds.nil start stream.pos, ?_⟩
      intro B handler fuel baton enough
      obtain ⟨fuel, rfl⟩ : ∃ less, fuel = less + 1 := ⟨fuel - 1, by omega⟩
      simp only [txdeltaSendTxstream, produced, List.map_nil, List.nil_append, consumeAll, if_true]
      rcases handler baton none with ⟨after, _ | error⟩ <;> rfl
  | succ count ih =>
      intro stream start short reading before
      by_cases ended : stream.target = []
      · obtain ⟨windows, rebuilds, sends⟩ := ih stream start (by simp [ended]) reading before
        exact ⟨windows, rebuilds, fun handler fuel baton enough =>
          sends handler fuel baton (by omega)⟩
      · obtain ⟨window, next, produced, nextReading, encodable, rest, offset, grows, stops,
          kept, applied⟩ := txdeltaNextWindow_window reading (Or.inl small) ended
        have positive : 0 < stream.target.length := List.length_pos_iff.mpr ended
        have shorter : next.target.length ≤ count := by
          rw [rest, List.length_drop, streamChunkSize]
          omega
        obtain ⟨windows, rebuilds, sends⟩ := ih next window.sviewOffset shorter nextReading kept
        refine ⟨window :: windows, ?_, ?_⟩
        · have whole := Rebuilds.cons encodable (show start ≤ _ by omega)
            (show _ ≤ stream.pos by omega) (by omega) (stops ▸ nextReading.inside) applied
            (stops.symm ▸ rebuilds)
          rwa [rest, List.take_append_drop] at whole
        · intro B handler fuel baton enough
          obtain ⟨fuel, rfl⟩ : ∃ less, fuel = less + 1 := ⟨fuel - 1, by omega⟩
          simp only [txdeltaSendTxstream, produced, List.map_cons, List.cons_append, consumeAll,
            reduceCtorEq, if_false]
          cases handled : handler baton (some window) with
          | mk after failure =>
              cases failure with
              | some error => rfl
              | none => exact sends handler fuel after (by omega)

/-- The buffer holds the last view of the source, and the stream continues behind it. -/
structure ApplyBaton.Viewing (baton : ApplyBaton) (source : Bytes) (stop : Nat) : Prop where
  opened : baton.closed = false
  ends : baton.sbufOffset + baton.sbuf.length = stop
  inside : stop ≤ source.length
  view : baton.sbuf = (source.drop baton.sbufOffset).take baton.sbuf.length
  unread : baton.source = source.drop stop

theorem txdeltaApply_viewing (source : Bytes) : (txdeltaApply source).Viewing source 0 := by
  constructor <;> simp [txdeltaApply]

/-- After sliding, the buffer holds the part of the new view that is already read. -/
theorem slideSource_viewing {baton : ApplyBaton} {source : Bytes} {stop : Nat}
    {window : TxdeltaWindow} (viewing : baton.Viewing source stop)
    (forward : baton.sbufOffset ≤ window.sviewOffset) (overlaps : window.sviewOffset ≤ stop) :
    (slideSource baton window).Viewing source stop ∧
      (slideSource baton window).sbufOffset = window.sviewOffset ∧
      (slideSource baton window).target = baton.target := by
  obtain ⟨opened, ends, inside, view, unread⟩ := viewing
  unfold slideSource
  split
  · refine ⟨⟨opened, ?_, inside, ?_, unread⟩, rfl, rfl⟩
    · dsimp only
      split
      · rw [List.length_drop]
        omega
      · simp only [List.length_nil]
        omega
    · dsimp only
      split
      · conv_lhs => rw [view]
        rw [List.length_drop, List.drop_take, List.drop_drop]
        congr 2
        omega
      · simp
  · next same =>
      push Not at same
      exact ⟨⟨opened, ends, inside, view, unread⟩, same.1.symm, rfl⟩

/-- The rest of the view is in the source, so the read is complete. -/
theorem readSource_viewing {baton : ApplyBaton} {source : Bytes} {stop : Nat}
    {window : TxdeltaWindow} (viewing : baton.Viewing source stop)
    (same : baton.sbufOffset = window.sviewOffset)
    (reaches : stop ≤ window.sviewOffset + window.sviewLen)
    (inside : window.sviewOffset + window.sviewLen ≤ source.length) :
    ∃ next, readSource baton window = (next, none) ∧
      next.Viewing source (window.sviewOffset + window.sviewLen) ∧
      next.sbufOffset = window.sviewOffset ∧ next.target = baton.target ∧
      next.sbuf = (source.drop window.sviewOffset).take window.sviewLen := by
  obtain ⟨opened, ends, stopInside, view, unread⟩ := viewing
  have exact : baton.sbuf ++ (source.drop stop).take (window.sviewLen - baton.sbuf.length) =
      (source.drop window.sviewOffset).take window.sviewLen := by
    have joined := saved_append source (window.sviewLen - baton.sbuf.length)
      (show baton.sbufOffset ≤ stop by omega)
    rw [show stop - baton.sbufOffset = baton.sbuf.length by omega, ← view, same] at joined
    rw [joined]
    congr 1
    omega
  unfold readSource
  split
  · have complete : ((source.drop stop).take (window.sviewLen - baton.sbuf.length)).length =
        window.sviewLen - baton.sbuf.length := by
      rw [List.length_take, List.length_drop]
      omega
    refine ⟨{ baton with
      source := baton.source.drop (window.sviewLen - baton.sbuf.length)
      sbuf := baton.sbuf ++ (source.drop stop).take (window.sviewLen - baton.sbuf.length) },
      ?_, ?_, same, rfl, exact⟩
    · simp only [streamRead, unread, complete, ne_eq, not_true_eq_false, if_false]
    · refine ⟨opened, ?_, inside, ?_, ?_⟩
      · simp only [List.length_append, complete]
        omega
      · simp only [exact, same]
        rw [List.length_take_of_le (by rw [List.length_drop]; omega)]
      · simp only [unread, List.drop_drop]
        congr 1
        omega
  · have full : stop = window.sviewOffset + window.sviewLen := by omega
    refine ⟨baton, rfl, ⟨opened, by omega, inside, view, full ▸ unread⟩, same, rfl, ?_⟩
    rw [view, same]
    congr 1
    omega

/-- One window of the chain appends its part of the target. -/
theorem applyWindow_viewing {baton : ApplyBaton} {source : Bytes} {stop : Nat}
    {window : TxdeltaWindow} {tbuf : Bytes} (viewing : baton.Viewing source stop)
    (small : window.sviewOffset + window.sviewLen < 2 ^ 63)
    (forward : baton.sbufOffset ≤ window.sviewOffset) (overlaps : window.sviewOffset ≤ stop)
    (reaches : stop ≤ window.sviewOffset + window.sviewLen)
    (inside : window.sviewOffset + window.sviewLen ≤ source.length)
    (applied : applyInstructions window
      ((source.drop window.sviewOffset).take window.sviewLen) = some tbuf) :
    ∃ next, applyWindow baton (some window) = (next, none) ∧
      next.Viewing source (window.sviewOffset + window.sviewLen) ∧
      next.sbufOffset = window.sviewOffset ∧ next.target = baton.target ++ tbuf := by
  obtain ⟨slid, offset, kept⟩ := slideSource_viewing viewing forward overlaps
  obtain ⟨next, read, nextViewing, nextOffset, nextTarget, sbuf⟩ :=
    readSource_viewing slid offset reaches inside
  have allowed : ¬ (negative window.sviewOffset ∨ window.sviewOffset < baton.sbufOffset ∨
      (window.sviewOffset + window.sviewLen) % 2 ^ 64 <
        (baton.sbufOffset + baton.sbuf.length) % 2 ^ 64) := by
    have ends := viewing.ends
    simp only [negative]
    omega
  refine ⟨{ next with target := next.target ++ tbuf }, ?_,
    ⟨nextViewing.opened, nextViewing.ends, nextViewing.inside, nextViewing.view,
      nextViewing.unread⟩, nextOffset, by simp only [nextTarget, kept]⟩
  unfold applyWindow
  rw [viewing.opened]
  simp only [Bool.false_eq_true, if_false, if_neg allowed, read, sbuf, applied]

/-- A chain of windows writes the whole target and closes it. -/
theorem applyWindow_rebuilds {source : Bytes} {start stop : Nat} {windows : List TxdeltaWindow}
    {target : Bytes} (rebuilds : Rebuilds source start stop windows target) :
    ∀ baton : ApplyBaton, baton.Viewing source stop → baton.sbufOffset ≤ start →
      ∃ final, consumeAll applyWindow baton (windows.map some ++ [none]) = (final, none) ∧
        final.target = baton.target ++ target ∧ final.closed = true := by
  induction rebuilds with
  | nil start stop =>
      intro baton viewing before
      refine ⟨{ baton with closed := true }, ?_, by simp, rfl⟩
      simp [consumeAll, applyWindow, viewing.opened]
  | cons encodable forward overlaps reaches inside applied tail ih =>
      intro baton viewing before
      obtain ⟨next, handled, nextViewing, offset, written⟩ := applyWindow_viewing viewing
        encodable.sview (by omega) overlaps reaches inside applied
      obtain ⟨final, consumed, target, closed⟩ := ih next nextViewing (le_of_eq offset)
      refine ⟨final, ?_, by rw [target, written, List.append_assoc], closed⟩
      simp only [List.map_cons, List.cons_append, consumeAll, handled]
      exact consumed

end Subversion.Delta
