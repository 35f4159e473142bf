/-
This file shows that a range read of a representation returns the range of its fulltext.
-/

import Subversion.Delta.ParserSafety
import Subversion.Fs.Reps
import Subversion.Lib.GuardedRuns

namespace Subversion.Fs

open Framing Delta Svndiff

/-- The svndiff data of one window, read by a parser that has seen only the stream header. -/
def decodeWindow (data : Bytes) : Option TxdeltaWindow :=
  match parseWindow ⟨0, 0, false⟩ data with
  | .item next window [] => if next.strayed then none else some window
  | _ => none

/-- The view of the window slides backwards behind the last view of the parser. -/
def ViewSlidesBackward (state : DecodeState) (window : TxdeltaWindow) : Prop :=
  SlidesBackward state ⟨window.sviewOffset, window.sviewLen, 0, 0, 0⟩

instance (state : DecodeState) (window : TxdeltaWindow) :
    Decidable (ViewSlidesBackward state window) := inferInstanceAs (Decidable (SlidesBackward _ _))

theorem not_slidesBackward_start (strayed : Bool) (header : WindowHeader) :
    ¬ SlidesBackward ⟨0, 0, strayed⟩ header := by
  simp [SlidesBackward, sizeAdd]

/-- What the parser has found in data that decodes to one window. -/
theorem decodeWindow_some {data : Bytes} {window : TxdeltaWindow}
    (decoded : decodeWindow data = some window) :
    ∃ header bytes, decodeHeader data = some (header, bytes) ∧
      ¬ negative header.sviewOffset ∧ bytes.length = header.inslen + header.newlen ∧
      window.sviewOffset = header.sviewOffset ∧ window.sviewLen = header.sviewLen ∧
      window.tviewLen = header.tviewLen ∧
      buildWindow header bytes =
        .item ⟨window.sviewOffset, window.sviewLen, false⟩ window [] := by
  unfold decodeWindow parseWindow at decoded
  simp only [Bool.false_eq_true, if_false] at decoded
  cases headed : decodeHeader data with
  | none => simp [headed] at decoded
  | some result =>
      obtain ⟨header, bytes⟩ := result
      simp only [headed, if_neg (not_slidesBackward_start false header)] at decoded
      split at decoded
      · next next found rest parsed =>
          split at decoded
          · cases decoded
          · next inBuffer =>
              cases decoded
              split at parsed
              · cases parsed
              · next nonnegative =>
                  split at parsed
                  · cases parsed
                  · split at parsed
                    · cases parsed
                    · next present =>
                        refine ⟨header, bytes, rfl, nonnegative, ?_⟩
                        unfold buildWindow at parsed ⊢
                        cases counted : verifiedCount header bytes with
                        | none => simp [counted] at parsed
                        | some count =>
                            obtain ⟨ops, -, -, -, placed⟩ :=
                              countAndVerifyInstructions_some _ _ _ _ counted
                            simp only [counted, placed, List.nil_append] at parsed ⊢
                            split at parsed
                            · cases parsed
                            · next few =>
                                simp only [Verdict.item.injEq] at parsed
                                obtain ⟨rfl, rfl, ended⟩ := parsed
                                simp only [decide_eq_true_eq, not_lt] at inBuffer
                                have short := List.drop_eq_nil_iff.mp ended
                                rw [List.length_drop] at inBuffer short
                                refine ⟨by omega, rfl, rfl, rfl, ?_⟩
                                rw [if_neg few, ended, decide_eq_false (by
                                  rw [List.length_drop]
                                  omega)]
      · cases decoded

/-- A parser that accepts the view reads the same window, and waits on every proper prefix. -/
theorem decodeWindow_parse {data : Bytes} {window : TxdeltaWindow}
    (decoded : decodeWindow data = some window) (small : data.length < 2 ^ 64)
    {state : DecodeState} (inBuffer : state.strayed = false)
    (forward : ¬ ViewSlidesBackward state window) :
    parseWindow state data = .item ⟨window.sviewOffset, window.sviewLen, false⟩ window [] ∧
      ∀ front back, data = front ++ back → back ≠ [] → parseWindow state front = .more := by
  obtain ⟨header, bytes, headed, nonnegative, length, offset, view, -, built⟩ :=
    decodeWindow_some decoded
  have accepted : ¬ SlidesBackward state header := by
    unfold ViewSlidesBackward SlidesBackward at forward
    rw [offset, view] at forward
    exact forward
  have sum : header.inslen + header.newlen < 2 ^ 64 := by
    have := decodeHeader_length headed
    omega
  refine ⟨?_, fun front back split unfinished =>
    parseWindow_prefix inBuffer nonnegative accepted sum headed length split unfinished⟩
  rw [parseWindow_header inBuffer nonnegative accepted sum headed, if_neg (by omega)]
  exact built

theorem parseWindow_nil {state : DecodeState} (inBuffer : state.strayed = false) :
    parseWindow state [] = .more := by
  simp [parseWindow, inBuffer, decodeHeader, decodeInt, decodeIntFrom]

/-- Behind the stream header, a write is one feed of the buffer. -/
theorem writeHandler_body {B : Type} (handler : WindowHandler B) {parser : DecodeBaton B}
    (headerDone : parser.headerBytes = 4) (chunk : Bytes) :
    writeHandler handler parser chunk =
      ({ parser with
          drain := (feed parseWindow (windowConsumer handler) parser.drain chunk).1 },
        (feed parseWindow (windowConsumer handler) parser.drain chunk).2) := by
  simp [writeHandler, headerDone]

/-- The parser after the stream header. -/
def freshParser {B : Type} (baton : B) : DecodeBaton B := ⟨⟨⟨0, 0, false⟩, [], baton⟩, 4, false⟩

theorem writeHandler_streamHeader {B : Type} (handler : WindowHandler B) (baton : B) :
    writeHandler handler (txdeltaParseSvndiff baton false) svndiffHeader =
      (freshParser baton, none) := by
  simp [writeHandler, txdeltaParseSvndiff, svndiffHeader, feed, drain, parseWindow_nil, freshParser]

/-- A parser between two windows: the buffer is empty, and the next view is accepted. -/
structure Between (parser : DecodeBaton WindowBaton) : Prop where
  headerDone : parser.headerBytes = 4
  buffer : parser.drain.buffer = []
  inBuffer : parser.drain.state.strayed = false
  early : parser.errorOnEarlyClose = false

variable {strings : StringsTable} {handler : WindowHandler WindowBaton} {strKey : StrKey}
  {data : Bytes} {window : TxdeltaWindow} {parser : DecodeBaton WindowBaton}

/-- The parser with a part of a window in its buffer. -/
def holding (parser : DecodeBaton WindowBaton) (buffer : Bytes) : DecodeBaton WindowBaton :=
  { parser with drain := { parser.drain with buffer := buffer } }

/-- The parser after the window has gone to the handler. -/
def afterWindow (parser : DecodeBaton WindowBaton) (window : TxdeltaWindow) (after : WindowBaton) :
    DecodeBaton WindowBaton :=
  { parser with drain := ⟨⟨window.sviewOffset, window.sviewLen, false⟩, [], after⟩ }

theorem between_afterWindow (between : Between parser) (after : WindowBaton) :
    Between (afterWindow parser window after) :=
  ⟨between.headerDone, rfl, rfl, between.early⟩

/-- At the end of the string, an empty chunk ends the loop. -/
theorem pumpString_end (present : strings.text strKey = some data) (between : Between parser)
    (fuel off : Nat) (past : data.length ≤ off) :
    pumpString strings handler strKey (fuel + 1) off parser = .ok parser := by
  have empty : (data.drop off).take 4096 = [] := by
    rw [List.drop_eq_nil_of_le past, List.take_nil]
  have waits : parseWindow parser.drain.state (parser.drain.buffer ++ []) = .more := by
    rw [between.buffer]
    exact parseWindow_nil between.inBuffer
  rw [pumpString, stringRead_eq present, empty]
  simp only [writeHandler_body handler between.headerDone,
    feed_more (windowConsumer handler) parser.drain.baton waits, List.append_nil, or_true, if_true]

/-- The pump delivers the window of the string to the handler, and only that. -/
theorem pumpString_window (handler : WindowHandler WindowBaton)
    (present : strings.text strKey = some data)
    (decoded : decodeWindow data = some window) (small : data.length < 2 ^ 64)
    (between : Between parser) (forward : ¬ ViewSlidesBackward parser.drain.state window)
    (undone : parser.drain.baton.done = false) :
    (∀ after, handler parser.drain.baton (some window) = (after, none) →
      pumpString strings handler strKey (pumpFuel strings strKey) 0 parser =
        .ok (afterWindow parser window after)) ∧
    ∀ after error, handler parser.drain.baton (some window) = (after, some error) →
      pumpString strings handler strKey (pumpFuel strings strKey) 0 parser = .error error := by
  obtain ⟨complete, partly⟩ := decodeWindow_parse decoded small between.inBuffer forward
  have nonempty : 0 < data.length := by
    cases data with
    | nil => rw [parseWindow_nil between.inBuffer] at complete; cases complete
    | cons => simp
  -- the buffer holds the data read so far, which is not yet the whole window
  have pump : ∀ (fuel off : Nat), off < data.length → data.length + 1 < fuel + off →
      (∀ after, handler parser.drain.baton (some window) = (after, none) →
        pumpString strings handler strKey fuel off (holding parser (data.take off)) =
          .ok (afterWindow parser window after)) ∧
      ∀ after error, handler parser.drain.baton (some window) = (after, some error) →
        pumpString strings handler strKey fuel off (holding parser (data.take off)) =
          .error error := by
    intro fuel
    induction fuel with
    | zero => omega
    | succ fuel ih =>
        intro off inside enough
        have chunkSome : (data.drop off).take 4096 ≠ [] := by
          simp
          omega
        have chunkLength : ((data.drop off).take 4096).length = min 4096 (data.length - off) := by
          rw [List.length_take, List.length_drop]
        have joined : data.take off ++ (data.drop off).take 4096 = data.take (off + 4096) := by
          rw [List.take_add]
        have wrote := writeHandler_body handler
          (show (holding parser (data.take off)).headerBytes = 4 from between.headerDone)
          ((data.drop off).take 4096)
        rw [pumpString, stringRead_eq present]
        simp only [wrote]
        by_cases last : data.length ≤ off + 4096
        · have whole : data.take off ++ (data.drop off).take 4096 = data := by
            rw [joined, List.take_of_length_le last]
          have decodedHere : parseWindow parser.drain.state
              (data.take off ++ (data.drop off).take 4096) =
              .item ⟨window.sviewOffset, window.sviewLen, false⟩ window [] := by
            rw [whole, complete]
          constructor
          · intro after handled
            have fed : feed parseWindow (windowConsumer handler) (holding parser (data.take off)).drain
                ((data.drop off).take 4096) = (⟨⟨window.sviewOffset, window.sviewLen, false⟩, [],
                  after⟩, none) :=
              feed_item (windowConsumer handler) decodedHere (parseWindow_nil rfl)
                (by simp [chunkSome]) handled
            simp only [fed, chunkSome, or_false]
            split
            · rfl
            · obtain ⟨fuel, rfl⟩ : ∃ less, fuel = less + 1 := ⟨fuel - 1, by omega⟩
              exact pumpString_end present (between_afterWindow between after) fuel _
                (by rw [chunkLength]; omega)
          · intro after error handled
            have refused : (feed parseWindow (windowConsumer handler)
                (holding parser (data.take off)).drain ((data.drop off).take 4096)).2 =
                some error := feed_item_error (windowConsumer handler) decodedHere handled
            rw [refused]
        · have waits : parseWindow parser.drain.state
              (data.take off ++ (data.drop off).take 4096) = .more := by
            rw [joined]
            apply partly (data.take (off + 4096)) (data.drop (off + 4096))
              (List.take_append_drop _ _).symm
            intro none
            have := List.drop_eq_nil_iff.mp none
            omega
          have fed : feed parseWindow (windowConsumer handler) (holding parser (data.take off)).drain
              ((data.drop off).take 4096) = (⟨parser.drain.state, data.take (off + 4096),
                parser.drain.baton⟩, none) := by
            rw [← joined]
            exact feed_more (windowConsumer handler) parser.drain.baton waits
          simp only [fed, undone, chunkSome, Bool.false_eq_true, or_false, if_false]
          have full : ((data.drop off).take 4096).length = 4096 := by omega
          rw [full]
          exact ih (off + 4096) (by omega) (by omega)
  have start := pump (pumpFuel strings strKey) 0 nonempty (by simp [pumpFuel, present])
  have same : holding parser (data.take 0) = parser := by
    rw [List.take_zero, ← between.buffer]
    rfl
  rwa [same] at start

section Playing

variable {reader : Reader} {baseRep : Nat} {window : TxdeltaWindow}

theorem playOp_extends {play next : Play} {op : TxdeltaOp}
    (played : playOp reader baseRep window play op = .ok next) : play.tbuf <+: next.tbuf := by
  unfold playOp at played
  split at played
  · cases played
  · split at played
    · cases played
    · split at played
      · next applied =>
          cases played
          exact applyOp_prefix applied
      · cases played

theorem playAll_extends (ops : List TxdeltaOp) {play final : Play}
    (played : ops.foldlM (playOp reader baseRep window) play = .ok final) :
    play.tbuf <+: final.tbuf := by
  refine GuardedRuns.foldlM_keeps (fun next => play.tbuf <+: next.tbuf) ops ?_ List.prefix_rfl played
  intro op _ current next before step
  exact before.trans (playOp_extends step)

/-- Stopping early does not change the bytes that are copied. -/
theorem playOps_copies (discard want : Nat) (ops : List TxdeltaOp) :
    ∀ {play final : Play} (copyAmt : Nat),
      ops.foldlM (playOp reader baseRep window) play = .ok final →
      copyAmt = play.tbuf.length - discard → copyAmt ≤ want →
      ∃ tbuf, playOps reader baseRep window discard want ops play copyAmt =
          .ok (tbuf, min (final.tbuf.length - discard) want) ∧
        (tbuf.drop discard).take (min (final.tbuf.length - discard) want) =
          (final.tbuf.drop discard).take want := by
  induction ops with
  | nil =>
      intro play final copyAmt played amount le
      cases played
      refine ⟨play.tbuf, by rw [playOps, amount, min_eq_left (by omega)], ?_⟩
      rw [List.take_eq_take_iff, List.length_drop]
      omega
  | cons op ops ih =>
      intro play final copyAmt played amount le
      rw [List.foldlM_cons] at played
      cases first : playOp reader baseRep window play op with
      | error error => rw [first] at played; cases played
      | ok next =>
          rw [first] at played
          have longer := (playOp_extends first).length_le
          rw [playOps, first]
          dsimp only
          split
          · split
            · next filled =>
                obtain ⟨rest, whole⟩ := playAll_extends ops played
                have length := congrArg List.length whole
                rw [List.length_append] at length
                refine ⟨next.tbuf, by rw [min_eq_right (by omega)], ?_⟩
                rw [min_eq_right (by omega), ← whole, List.drop_append_of_le_length (by omega),
                  List.take_append_of_le_length (by rw [List.length_drop]; omega)]
            · exact ih _ played rfl (by omega)
          · exact ih _ played (by omega) le

/-- The handler appends the requested part of the window's text. -/
theorem windowHandler_plays (baton : WindowBaton) {final : Play} (undone : baton.done = false)
    (played : window.ops.foldlM (playOp reader baton.baseRep window) ⟨[], none⟩ = .ok final) :
    windowHandler reader baton (some window) =
      ({ baton with
          buf := baton.buf ++ (final.tbuf.drop (baton.reqOffset - baton.curOffset)).take
            (baton.lenReq - baton.buf.length)
          curOffset := sizeAdd baton.curOffset
            (min (final.tbuf.length - (baton.reqOffset - baton.curOffset))
              (baton.lenReq - baton.buf.length))
          done := decide (sizeAdd baton.reqOffset baton.lenReq ≤ sizeAdd baton.curOffset
            (min (final.tbuf.length - (baton.reqOffset - baton.curOffset))
              (baton.lenReq - baton.buf.length))) }, none) := by
  obtain ⟨tbuf, stopped, copied⟩ := playOps_copies (baton.reqOffset - baton.curOffset)
    (baton.lenReq - baton.buf.length) window.ops 0 played (by simp) (Nat.zero_le _)
  simp only [windowHandler, undone, Bool.false_eq_true, if_false, stopped, copied]

/-- A readable source view and sound instructions play to the end. -/
theorem playAll_applyInstructions {view piece : Bytes}
    (read : reader baseRep window.sviewOffset window.sviewLen = .ok view)
    (applied : applyInstructions window view = some piece) (small : window.tviewLen < 2 ^ 31) :
    ∃ final, window.ops.foldlM (playOp reader baseRep window) ⟨[], none⟩ = .ok final ∧
      final.tbuf = piece := by
  have folded : ∀ (ops : List TxdeltaOp) (tbuf last : Bytes) (sbuf : Option Bytes),
      sbuf = none ∨ sbuf = some view → ops.foldlM (applyOp window view) tbuf = some last →
      ∃ final, ops.foldlM (playOp reader baseRep window) ⟨tbuf, sbuf⟩ = .ok final ∧
        final.tbuf = last := by
    intro ops
    induction ops with
    | nil =>
        intro tbuf last sbuf _ applied
        cases applied
        exact ⟨⟨tbuf, sbuf⟩, rfl, rfl⟩
    | cons op ops ih =>
        intro tbuf last sbuf known applied
        simp only [List.foldlM_cons, Option.bind_eq_bind, Option.bind_eq_some_iff] at applied
        obtain ⟨next, first, rest⟩ := applied
        have inRange : ¬ (op.actionCode = .target ∧ 2 ^ 31 ≤ op.offset + op.length) := by
          rintro ⟨isTarget, large⟩
          have := applyOp_target first isTarget
          omega
        obtain ⟨kept, viewed, step⟩ : ∃ kept, (kept = none ∨ kept = some view) ∧
            playOp reader baseRep window ⟨tbuf, sbuf⟩ op = .ok ⟨next, kept⟩ := by
          by_cases isSource : op.actionCode = .source
          · refine ⟨some view, Or.inr rfl, ?_⟩
            have source : sourceView reader baseRep window op sbuf = .ok (some view) := by
              rcases known with rfl | rfl
              · simp [sourceView, isSource, read]
              · simp [sourceView]
            simp only [playOp, source, if_neg inRange, Option.getD_some, first]
          · refine ⟨sbuf, known, ?_⟩
            have source : sourceView reader baseRep window op sbuf = .ok sbuf := by
              simp [sourceView, isSource]
            simp only [playOp, source, if_neg inRange,
              applyOp_sbuf window (sbuf.getD []) view tbuf isSource, first]
        obtain ⟨final, played, same⟩ := ih next last kept viewed rest
        refine ⟨final, ?_, same⟩
        rw [List.foldlM_cons, step]
        exact played
  unfold applyInstructions at applied
  split at applied
  · next last instructions =>
      split at applied
      · cases applied
        exact folded window.ops [] piece none (Or.inl rfl) instructions
      · cases applied
  · cases applied

end Playing

/-- The windows are contiguous, the parser accepts them in order, and they play to the text. -/
inductive Pieces (strings : StringsTable) (reader : Reader) :
    DecodeState → Nat → List DeltaWindow → Bytes → Prop where
  | nil (state : DecodeState) (start : Nat) : Pieces strings reader state start [] []
  | cons {state : DecodeState} {start : Nat} {entry : DeltaWindow} {windows : List DeltaWindow}
      {data : Bytes} {window : TxdeltaWindow} {final : Play} {rest : Bytes}
      (offset : entry.offset = start) (present : strings.text entry.strKey = some data)
      (small : data.length < 2 ^ 64) (decoded : decodeWindow data = some window)
      (forward : ¬ ViewSlidesBackward state window)
      (played : window.ops.foldlM (playOp reader entry.base window) ⟨[], none⟩ = .ok final)
      (size : final.tbuf.length = entry.size) (fits : start + entry.size < 2 ^ 31)
      (tail : Pieces strings reader ⟨window.sviewOffset, window.sviewLen, false⟩
        (start + entry.size) windows rest) :
      Pieces strings reader state start (entry :: windows) (final.tbuf ++ rest)

theorem Pieces.small {strings : StringsTable} {reader : Reader} {state : DecodeState}
    {start : Nat} {windows : List DeltaWindow} {text : Bytes}
    (pieces : Pieces strings reader state start windows text) (inside : start < 2 ^ 31) :
    start + text.length < 2 ^ 31 := by
  induction pieces with
  | nil state start => simpa using inside
  | cons offset present small decoded forward played size fits tail ih =>
      have := ih fits
      rw [List.length_append, size]
      omega

/-- The part of the next piece that belongs to the range follows the part before it. -/
theorem range_append (before piece : Bytes) (offset len : Nat) :
    ((before ++ piece).drop offset).take len =
      (before.drop offset).take len ++ (piece.drop (offset - before.length)).take
        (len - ((before.drop offset).take len).length) := by
  rw [List.drop_append, List.take_append, List.length_take, List.length_drop]
  congr 2
  omega

/-- A range that ends inside the first part does not depend on the rest. -/
theorem range_covered (before rest : Bytes) {offset len : Nat}
    (covered : offset + len ≤ before.length ∨ (before ++ rest).length ≤ offset) :
    ((before ++ rest).drop offset).take len = (before.drop offset).take len := by
  rcases covered with inside | past
  · rw [List.drop_append_of_le_length (by omega),
      List.take_append_of_le_length (by rw [List.length_drop]; omega)]
  · rw [List.drop_eq_nil_of_le past, List.drop_eq_nil_of_le (by
      rw [List.length_append] at past
      omega)]

/-- Every view that the second state accepts is accepted by the first. -/
def Behind (first second : DecodeState) : Prop :=
  first.lastSviewOffset ≤ second.lastSviewOffset ∧
    sizeAdd first.lastSviewOffset first.lastSviewLen ≤
      sizeAdd second.lastSviewOffset second.lastSviewLen

theorem behind_start (state : DecodeState) : Behind ⟨0, 0, false⟩ state :=
  ⟨Nat.zero_le _, Nat.zero_le _⟩

theorem Behind.accepts {first second : DecodeState} {window : TxdeltaWindow}
    (behind : Behind first second) (forward : ¬ ViewSlidesBackward second window) :
    ¬ ViewSlidesBackward first window ∧
      Behind first ⟨window.sviewOffset, window.sviewLen, false⟩ := by
  unfold Behind ViewSlidesBackward SlidesBackward at *
  push Not at forward ⊢
  dsimp only at forward ⊢
  exact ⟨⟨by omega, by omega⟩, by omega, by omega⟩

/-- The loop over the windows collects the requested range. -/
theorem readWindows_pieces {strings : StringsTable} {reader : Reader} {offset len : Nat}
    (offsetSmall : offset < 2 ^ 64) (lenSmall : len < 2 ^ 63) {state : DecodeState} {start : Nat}
    {windows : List DeltaWindow} {text : Bytes}
    (pieces : Pieces strings reader state start windows text) :
    ∀ (parser : DecodeBaton WindowBaton) (before : Bytes), before.length = start →
      start < 2 ^ 31 → Between parser → Behind parser.drain.state state →
      parser.drain.baton.reqOffset = offset → parser.drain.baton.lenReq = len →
      parser.drain.baton.done = false →
      parser.drain.baton.buf = (before.drop offset).take len →
      ∃ last, readWindows strings reader offset len windows parser = .ok last ∧
        last.errorOnEarlyClose = false ∧
        last.drain.baton.buf = ((before ++ text).drop offset).take len := by
  induction pieces with
  | nil state start =>
      intro parser before length inside between _ _ _ _ buf
      exact ⟨parser, rfl, between.early, by rw [List.append_nil, buf]⟩
  | @cons state start entry windows data window final rest entryOffset present small decoded
      forward played size fits tail ih =>
      intro parser before length inside between behind reqOffset lenReq undone buf
      obtain ⟨accepted, nextBehind⟩ := behind.accepts forward
      have total := tail.small fits
      have offsetInt : atoi entry.offset = .ok start := by
        rw [atoi, if_pos (by omega), entryOffset]
      have sizeInt : atoi entry.size = .ok entry.size := if_pos (by omega)
      rw [readWindows, offsetInt, sizeInt]
      dsimp only
      rw [sizeAdd_small (show start + entry.size < 2 ^ 64 by omega)]
      have grown : (before ++ final.tbuf).length = start + entry.size := by
        rw [List.length_append, length, size]
      have whole : (before ++ final.tbuf ++ rest).length = start + entry.size + rest.length := by
        rw [List.length_append, grown]
      rw [← List.append_assoc]
      split
      · next skipped =>
          -- the window lies entirely before the range
          have earlier : start + entry.size ≤ offset := by
            unfold sizeSub at skipped
            omega
          exact ih parser (before ++ final.tbuf) grown fits between nextBehind reqOffset lenReq
            undone (by
              rw [buf, List.drop_eq_nil_of_le (by omega), List.drop_eq_nil_of_le (by omega)])
      · next relevant =>
          have reaches : offset < start + entry.size ∨ start + entry.size = 0 := by
            unfold sizeSub at relevant
            omega
          split
          · next beyond =>
              -- the window lies entirely behind the range
              have covered : offset + len ≤ before.length := by
                unfold sizeAdd at beyond
                omega
              refine ⟨parser, rfl, between.early, ?_⟩
              rw [buf, List.append_assoc, range_covered before _ (Or.inl covered)]
          · set aimed := aimBaton parser start entry.base with aimedEq
            have handled := windowHandler_plays aimed.drain.baton undone played
            have betweenAimed : Between aimed :=
              ⟨between.headerDone, between.buffer, between.inBuffer, between.early⟩
            have pumped := (pumpString_window (windowHandler reader) present decoded small
              betweenAimed accepted undone).1 _ handled
            rw [pumped]
            dsimp only
            have nextBuf : aimed.drain.baton.buf ++ (final.tbuf.drop
                (aimed.drain.baton.reqOffset - aimed.drain.baton.curOffset)).take
                (aimed.drain.baton.lenReq - aimed.drain.baton.buf.length) =
                ((before ++ final.tbuf).drop offset).take len := by
              simp only [aimedEq, aimBaton, reqOffset, lenReq, buf]
              rw [range_append, length]
            split
            · next done =>
                -- the output is complete
                refine ⟨_, rfl, between.early, ?_⟩
                simp only [afterWindow, aimedEq, aimBaton, reqOffset, lenReq,
                  decide_eq_true_eq] at done
                have covered : offset + len ≤ (before ++ final.tbuf).length ∨
                    (before ++ final.tbuf ++ rest).length ≤ offset := by
                  rw [whole, grown]
                  unfold sizeAdd at done
                  omega
                rw [range_covered _ rest covered, ← nextBuf]
                rfl
            · next continues =>
                exact ih _ (before ++ final.tbuf) grown fits (between_afterWindow betweenAimed _)
                  ⟨le_rfl, le_rfl⟩ reqOffset lenReq (Bool.not_eq_true _ ▸ continues) nextBuf

/-- A delta whose windows play to a text is read as ranges of that text. -/
theorem readDelta_pieces {strings : StringsTable} {reader : Reader} {windows : List DeltaWindow}
    {text : Bytes} (some : windows ≠ [])
    (pieces : Pieces strings reader ⟨0, 0, false⟩ 0 windows text) {offset len : Nat}
    (offsetSmall : offset < 2 ^ 64) (lenSmall : len < 2 ^ 63) :
    readDelta strings reader windows offset len = .ok ((text.drop offset).take len) := by
  obtain ⟨last, read, early, buf⟩ := readWindows_pieces offsetSmall lenSmall pieces
    (freshParser ⟨offset, 0, 0, len, [], false⟩) [] rfl (by decide)
    ⟨rfl, rfl, rfl, rfl⟩ (behind_start _) rfl rfl rfl (by simp [freshParser])
  rw [readDelta, if_neg some, writeHandler_streamHeader]
  simp only [read, closeHandler, early, Bool.false_eq_true, false_and, if_false, windowHandler]
  rw [buf, List.nil_append]

/-- A string is addressed by an `apr_off_t`. -/
def storedText (strings : StringsTable) (key : StrKey) : Option Bytes :=
  match strings.text key with
  | some bytes => if bytes.length < 2 ^ 63 then some bytes else none
  | none => none

/-- The window's instructions, applied to its view of the base rep's fulltext. -/
def windowText (strings : StringsTable) (text : Nat → Option Bytes) (entry : DeltaWindow) :
    Option Bytes := do
  let data ← storedText strings entry.strKey
  let window ← decodeWindow data
  let base ← text entry.base
  let piece ← applyInstructions window ((base.drop window.sviewOffset).take window.sviewLen)
  if window.sviewOffset + window.sviewLen ≤ base.length ∧ piece.length = entry.size then some piece
  else none

/-- The windows are contiguous from the given offset. -/
def windowsText (strings : StringsTable) (text : Nat → Option Bytes) :
    Nat → List DeltaWindow → Option Bytes
  | _, [] => some []
  | start, entry :: windows =>
      if entry.offset = start then do
        let piece ← windowText strings text entry
        let rest ← windowsText strings text (start + entry.size) windows
        return piece ++ rest
      else none

/-- The fulltext of a well-formed rep whose chain of base reps is shorter than the depth. -/
def repText (store : Store) : Nat → Nat → Option Bytes
  | 0, _ => none
  | depth + 1, key =>
      match store.reps key with
      | none => none
      | some rep =>
          match rep.kind with
          | .fulltext strKey => storedText store.strings strKey
          | .delta windows =>
              if windows = [] then none else windowsText store.strings (repText store depth) 0 windows

/-- No view slides backwards behind the one before it. -/
def Forward (strings : StringsTable) : DecodeState → List DeltaWindow → Prop
  | _, [] => True
  | state, entry :: windows =>
      match (storedText strings entry.strKey).bind decodeWindow with
      | some window => ¬ ViewSlidesBackward state window ∧
          Forward strings ⟨window.sviewOffset, window.sviewLen, false⟩ windows
      | none => True

instance decidableForward (strings : StringsTable) (state : DecodeState)
    (windows : List DeltaWindow) : Decidable (Forward strings state windows) :=
  match windows with
  | [] => isTrue trivial
  | entry :: rest =>
      match found : (storedText strings entry.strKey).bind decodeWindow with
      | some window =>
          have := decidableForward strings ⟨window.sviewOffset, window.sviewLen, false⟩ rest
          decidable_of_iff (¬ ViewSlidesBackward state window ∧
            Forward strings ⟨window.sviewOffset, window.sviewLen, false⟩ rest)
            (by rw [Forward, found])
      | none => isTrue (by rw [Forward, found]; trivial)

/-- Along the whole chain, views go forward and the recorded numbers are of type `int`. -/
def Readable (store : Store) : Nat → Nat → Prop
  | 0, _ => True
  | depth + 1, key =>
      match store.reps key with
      | none => True
      | some rep =>
          match rep.kind with
          | .fulltext _ => True
          | .delta windows => Forward store.strings ⟨0, 0, false⟩ windows ∧
              ∀ entry ∈ windows, entry.offset + entry.size < 2 ^ 31 ∧ Readable store depth entry.base

/-- The requested bytes go to one buffer in memory, so there are fewer than 2^63 of them. -/
structure ReadRequest where
  offset : Nat
  len : Nat
  offsetSmall : offset < 2 ^ 64
  lenSmall : len < 2 ^ 63

theorem storedText_some {strings : StringsTable} {key : StrKey} {bytes : Bytes}
    (stored : storedText strings key = some bytes) :
    strings.text key = some bytes ∧ bytes.length < 2 ^ 63 := by
  unfold storedText at stored
  split at stored
  · next present =>
      split at stored
      · next small =>
          cases stored
          exact ⟨present, small⟩
      · cases stored
  · cases stored

/-- The reader returns every range of the text of the rep. -/
def ReadsAs (reader : Reader) (key : Nat) (text : Bytes) : Prop :=
  text.length < 2 ^ 63 ∧ ∀ offset len, offset < 2 ^ 64 → len < 2 ^ 63 →
    reader key offset len = .ok ((text.drop offset).take len)

/-- Well-formed windows over a readable base play to their text. -/
theorem windowsText_pieces {strings : StringsTable} {reader : Reader}
    {text : Nat → Option Bytes} (windows : List DeltaWindow) :
    ∀ (state : DecodeState) (start : Nat) (whole : Bytes),
      (∀ entry ∈ windows, ∀ bytes, text entry.base = some bytes →
        ReadsAs reader entry.base bytes) →
      Forward strings state windows →
      (∀ entry ∈ windows, entry.offset + entry.size < 2 ^ 31) →
      windowsText strings text start windows = some whole →
      Pieces strings reader state start windows whole := by
  induction windows with
  | nil =>
      intro state start whole _ _ _ same
      cases same
      exact Pieces.nil state start
  | cons entry windows ih =>
      intro state start whole reads forward ints applied
      rw [windowsText] at applied
      split at applied
      · next offset =>
          simp only [Option.bind_eq_bind, Option.bind_eq_some_iff, Option.pure_def,
            Option.some.injEq] at applied
          obtain ⟨piece, first, rest, tail, rfl⟩ := applied
          simp only [windowText, Option.bind_eq_bind, Option.bind_eq_some_iff] at first
          obtain ⟨data, stored, window, decoded, base, baseText, played, instructions, checks⟩ :=
            first
          split at checks
          · next inside =>
              cases checks
              obtain ⟨present, small⟩ := storedText_some stored
              rw [Forward, stored, Option.bind_some, decoded] at forward
              obtain ⟨baseSmall, baseRead⟩ := reads entry List.mem_cons_self base baseText
              have fits := ints entry List.mem_cons_self
              have length := applyInstructions_length instructions
              obtain ⟨final, plays, rfl⟩ := playAll_applyInstructions
                (baseRead window.sviewOffset window.sviewLen (by omega) (by omega))
                instructions (by omega)
              exact Pieces.cons offset present (by omega) decoded forward.1 plays inside.2
                (by omega) (ih _ _ _
                  (fun other member => reads other (List.mem_cons_of_mem _ member)) forward.2
                  (fun other member => ints other (List.mem_cons_of_mem _ member)) tail)
          · cases checks
      · cases applied

theorem Pieces.last {strings : StringsTable} {reader : Reader} {state : DecodeState}
    {start : Nat} {windows : List DeltaWindow} {text : Bytes}
    (pieces : Pieces strings reader state start windows text) (some : windows ≠ []) :
    ∃ entry, windows.getLast? = .some entry ∧ entry.offset + entry.size = start + text.length := by
  induction pieces with
  | nil => exact absurd rfl some
  | @cons state start entry windows data window final rest offset present small decoded forward
      played size fits tail ih =>
      cases windows with
      | nil =>
          cases tail
          exact ⟨entry, rfl, by rw [List.append_nil, size, offset]⟩
      | cons next windows =>
          obtain ⟨last, found, ends⟩ := ih (by simp)
          refine ⟨last, by rw [List.getLast?_cons_cons, found], ?_⟩
          rw [ends, List.length_append, size]
          omega

/-- The recorded size of a delta is the length of its text. -/
theorem repContentsSize_pieces {store : Store} {key : Nat} {rep : Rep} {reader : Reader}
    {windows : List DeltaWindow} {text : Bytes} (found : store.reps key = some rep)
    (kind : rep.kind = .delta windows) (some : windows ≠ [])
    (pieces : Pieces store.strings reader ⟨0, 0, false⟩ 0 windows text) :
    repContentsSize store key = .ok text.length := by
  obtain ⟨last, isLast, ends⟩ := pieces.last some
  have small := pieces.small (by decide)
  rw [Nat.zero_add] at ends
  simp only [repContentsSize, readRep, found, kind, isLast, atoi]
  rw [if_pos (by omega), if_pos (by omega)]
  dsimp only
  rw [if_pos (by omega), ends]

/-- At every depth, a readable rep is read as its fulltext, and its size is recorded. -/
theorem repText_reads (store : Store) (depth : Nat) :
    ∀ (key : Nat) (text : Bytes), repText store depth key = some text →
      Readable store depth key →
      ReadsAs (repReadRange store depth) key text ∧ repContentsSize store key = .ok text.length := by
  induction depth with
  | zero =>
      intro key text whole
      cases whole
  | succ depth ih =>
      intro key text whole readable
      rw [repText] at whole
      rw [Readable] at readable
      cases found : store.reps key with
      | none => rw [found] at whole; cases whole
      | some rep =>
          rw [found] at whole readable
          dsimp only at whole readable
          cases kind : rep.kind with
          | fulltext strKey =>
              rw [kind] at whole
              obtain ⟨present, small⟩ := storedText_some whole
              refine ⟨⟨small, ?_⟩, ?_⟩
              · intro offset len _ _
                simp only [repReadRange, readLevel, readRep, found, kind]
                exact stringRead_eq present offset len
              · simp only [repContentsSize, readRep, found, kind]
                exact stringSize_eq present
          | delta windows =>
              rw [kind] at whole readable
              obtain ⟨forward, entries⟩ := readable
              dsimp only at whole
              split at whole
              · cases whole
              · next nonempty =>
                  have pieces := windowsText_pieces windows ⟨0, 0, false⟩ 0 text
                    (fun entry member bytes base => (ih _ _ base (entries entry member).2).1)
                    forward (fun entry member => (entries entry member).1) whole
                  have small := pieces.small (by decide)
                  refine ⟨⟨by omega, ?_⟩, repContentsSize_pieces found kind nonempty pieces⟩
                  intro offset len offsetSmall lenSmall
                  simp only [repReadRange, readLevel, readRep, found, kind]
                  exact readDelta_pieces nonempty pieces offsetSmall lenSmall

/-- A well-formed rep is read as ranges of its fulltext, and its size is the text's length. -/
theorem repReadRange_text (store : Store) (depth key : Nat) (text : Bytes)
    (whole : repText store depth key = some text) (readable : Readable store depth key)
    (request : ReadRequest) :
    repReadRange store depth key request.offset request.len =
        .ok ((text.drop request.offset).take request.len) ∧
      repContentsSize store key = .ok text.length := by
  obtain ⟨⟨-, reads⟩, size⟩ := repText_reads store depth key text whole readable
  exact ⟨reads _ _ request.offsetSmall request.lenSmall, size⟩

/-- Two windows over one base text, the second reading behind the view of the first. -/
def slidingStore (firstView secondView : UInt8) : Store where
  strings := ⟨fun key =>
    if key = some 0 then some [[10, 11], [12, 13]]
    else if key = some 1 then some [[firstView, 1, 1, 2, 0, 1, 0]]
    else if key = some 2 then some [[secondView, 1, 1, 2], [0, 1, 0]]
    else none, 3⟩
  reps := fun key =>
    if key = 0 then some ⟨false, .fulltext (some 0)⟩
    else if key = 1 then some ⟨false, .delta [⟨0, 1, some 1, 0⟩, ⟨1, 1, some 2, 0⟩]⟩
    else none
  nextRep := 2

/-- The last two bytes of a delta with two windows, read across the end. -/
theorem repReadRange_text_two_windows :
    repText (slidingStore 1 3) 2 1 = some [11, 13] ∧
      repReadRange (slidingStore 1 3) 2 1 1 5 = .ok [13] ∧
      repContentsSize (slidingStore 1 3) 1 = .ok 2 :=
  ⟨by decide,
    repReadRange_text (slidingStore 1 3) 2 1 [11, 13] (by decide)
      ⟨by decide, by simp [slidingStore, Readable]⟩ ⟨1, 5, by decide, by decide⟩⟩

/-- One window that repeats a byte 2^31 times. -/
def largeStore : Store where
  strings := ⟨fun key =>
    if key = some 0 then some [[]]
    else if key = some 1 then
      some [[0, 0, 136, 128, 128, 128, 0, 8, 1], [129, 64, 135, 255, 255, 255, 127, 0], [7]]
    else none, 2⟩
  reps := fun key =>
    if key = 0 then some ⟨false, .fulltext (some 0)⟩
    else if key = 1 then some ⟨false, .delta [⟨0, 2 ^ 31, some 1, 0⟩]⟩
    else none
  nextRep := 2

/-- A window has a text when its data, its base, and its instructions are in order. -/
theorem windowText_eq {strings : StringsTable} {text : Nat → Option Bytes} {entry : DeltaWindow}
    {data base piece : Bytes} {window : TxdeltaWindow}
    (stored : storedText strings entry.strKey = some data)
    (decoded : decodeWindow data = some window) (baseText : text entry.base = some base)
    (applied : applyInstructions window ((base.drop window.sviewOffset).take window.sviewLen) =
      some piece) (inside : window.sviewOffset + window.sviewLen ≤ base.length)
    (size : window.tviewLen = entry.size) : windowText strings text entry = some piece := by
  have length := applyInstructions_length applied
  simp only [windowText, stored, decoded, baseText, applied, Option.bind_eq_bind,
    Option.bind_some]
  exact if_pos ⟨inside, length.trans size⟩

theorem repText_window {store : Store} {depth key : Nat} {rep : Rep} {entry : DeltaWindow}
    {piece : Bytes} (found : store.reps key = some rep) (kind : rep.kind = .delta [entry])
    (offset : entry.offset = 0)
    (text : windowText store.strings (repText store depth) entry = some piece) :
    repText store (depth + 1) key = some piece := by
  simp [repText, found, kind, windowsText, offset, text]

/-- The fulltext exists, although the reader never gets to it. -/
theorem largeStore_text : ∃ text, repText largeStore 2 1 = some text := by
  have sound : Sound ⟨0, 0, 2 ^ 31, [⟨.new, 0, 1⟩, ⟨.target, 0, 2 ^ 31 - 1⟩], [7], 1⟩ := by
    decide
  obtain ⟨tbuf, applied⟩ := applyInstructions_sound sound (show ([] : Bytes).length = 0 from rfl)
  have data : storedText largeStore.strings (some 1) = some [0, 0, 136, 128, 128, 128, 0, 8, 1,
      129, 64, 135, 255, 255, 255, 127, 0, 7] := by decide
  have decoded : decodeWindow [0, 0, 136, 128, 128, 128, 0, 8, 1, 129, 64, 135, 255, 255, 255,
      127, 0, 7] = some ⟨0, 0, 2 ^ 31, [⟨.new, 0, 1⟩, ⟨.target, 0, 2 ^ 31 - 1⟩], [7], 1⟩ := by
    decide
  have base : repText largeStore 1 0 = some [] := by decide
  have window : windowText largeStore.strings (repText largeStore 1) ⟨0, 2 ^ 31, some 1, 0⟩ =
      some tbuf :=
    windowText_eq data decoded base applied (le_refl 0) rfl
  exact ⟨tbuf, repText_window (show largeStore.reps 1 = some _ from rfl) rfl rfl window⟩

/-- A view that slides backwards ends the read, and a size beyond `int` cannot be read back. -/
theorem repReadRange_fails_on_well_formed_reps :
    (repText (slidingStore 2 0) 2 1 = some [12, 10] ∧
      repReadRange (slidingStore 2 0) 2 1 0 2 =
        .error ⟨.svndiffBackwardView, "svndiff has backwards-sliding source views"⟩) ∧
    (∃ text, repText largeStore 2 1 = some text) ∧
      repContentsSize largeStore 1 = .error SvnError.undefinedBehaviour := by
  exact ⟨by decide, largeStore_text, by decide⟩

end Subversion.Fs
