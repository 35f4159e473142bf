/-
This file shows when the parser's outcome does not depend on how its input is cut into writes.
-/

import Subversion.Delta.ParserSafety

namespace Subversion.Svndiff

open SelfCopy Framing Delta

/-- All writes and the close. The first error ends the run. -/
def decodeAll {B : Type} (handler : WindowHandler B) (baton : B) (errorOnEarlyClose : Bool)
    (chunks : List Bytes) : B × Option SvnError :=
  match writeAll handler (txdeltaParseSvndiff baton errorOnEarlyClose) chunks with
  | (next, some error) => (next.drain.baton, some error)
  | (next, none) => closeHandler handler next

/-- In no way of cutting the bytes does the parser lose its defined behaviour, and every consumer
receives the same windows and the same error in all of them. -/
def ChunkInvariant (bytes : Bytes) : Prop :=
  (∀ errorOnEarlyClose chunks, chunks.flatten = bytes →
    (writeAll recordWindow (txdeltaParseSvndiff [] errorOnEarlyClose) chunks).2 ≠
      some SvnError.undefinedBehaviour) ∧
  ∀ (B : Type) (handler : WindowHandler B) (baton : B) (errorOnEarlyClose : Bool)
    (first second : List Bytes), first.flatten = bytes → second.flatten = bytes →
    decodeAll handler baton errorOnEarlyClose first =
      decodeAll handler baton errorOnEarlyClose second

/-- When the parser takes up a window, the sum of its two lengths does not wrap, and the number of
its instructions is an `int`. -/
def Steady (state : DecodeState) (buffer : Bytes) : Prop :=
  match decodeHeader buffer with
  | none => True
  | some (header, bytes) =>
      negative header.sviewOffset ∨ SlidesBackward state header ∨
        bytes.length < sizeAdd header.inslen header.newlen ∨
        (header.inslen + header.newlen < 2 ^ 64 ∧
          ∀ count, verifiedCount header bytes = some count → count < 2 ^ 31)

section Headers

variable {bytes rest code : Bytes} {header : WindowHeader}

theorem decodeIntFrom_split {prior value : Nat}
    (decoded : decodeIntFrom prior bytes = some (value, rest)) :
    ∃ code, bytes = code ++ rest ∧ decodeIntFrom prior code = some (value, []) := by
  induction bytes generalizing prior with
  | nil => cases decoded
  | cons byte bytes ih =>
      simp only [decodeIntFrom] at decoded
      split at decoded
      · next last =>
          cases decoded
          exact ⟨[byte], rfl, by simp only [decodeIntFrom, if_pos last]⟩
      · next continued =>
          obtain ⟨code, rfl, read⟩ := ih decoded
          refine ⟨byte :: code, rfl, ?_⟩
          simp only [decodeIntFrom, if_neg continued]
          exact read

/-- An integer is decoded from its own bytes, whatever follows them. -/
theorem decodeInt_split {value : Nat} (decoded : decodeInt bytes = some (value, rest)) :
    ∃ code, bytes = code ++ rest ∧ ∀ more, decodeInt (code ++ more) = some (value, more) := by
  obtain ⟨code, split, read⟩ := decodeIntFrom_split decoded
  exact ⟨code, split, fun more => decodeInt_append read more⟩

/-- A window header is decoded from its own bytes. -/
theorem decodeHeader_split (decoded : decodeHeader bytes = some (header, rest)) :
    ∃ code, bytes = code ++ rest ∧ code ≠ [] ∧
      ∀ more, decodeHeader (code ++ more) = some (header, more) := by
  have shorter := decodeHeader_length decoded
  simp only [decodeHeader, Option.bind_eq_bind, Option.bind_eq_some_iff, Option.pure_def,
    Option.some.injEq, Prod.exists] at decoded
  obtain ⟨_, _, first, _, _, second, _, _, third, _, _, fourth, _, _, fifth, equal⟩ := decoded
  cases equal
  obtain ⟨one, rfl, readOne⟩ := decodeInt_split first
  obtain ⟨two, rfl, readTwo⟩ := decodeInt_split second
  obtain ⟨three, rfl, readThree⟩ := decodeInt_split third
  obtain ⟨four, rfl, readFour⟩ := decodeInt_split fourth
  obtain ⟨five, rfl, readFive⟩ := decodeInt_split fifth
  refine ⟨one ++ two ++ three ++ four ++ five, by simp only [List.append_assoc], ?_, ?_⟩
  · intro none
    simp only [List.append_eq_nil_iff] at none
    obtain ⟨⟨⟨⟨rfl, rfl⟩, rfl⟩, rfl⟩, rfl⟩ := none
    simp at shorter
  · intro more
    simp only [List.append_assoc, decodeHeader, readOne, readTwo, readThree, readFour, readFive,
      Option.bind_eq_bind, Option.bind_some, Option.pure_def]

/-- A part of a window header is not decoded. -/
theorem decodeHeader_partly (whole : ∀ more, decodeHeader (code ++ more) = some (header, more))
    {front back : Bytes} (split : code = front ++ back) (unfinished : back ≠ []) :
    decodeHeader front = none := by
  cases read : decodeHeader front with
  | none => rfl
  | some result =>
      obtain ⟨other, left⟩ := result
      have extended := decodeHeader_append read back
      have complete := whole []
      rw [List.append_nil, split, extended] at complete
      simp only [Option.some.injEq, Prod.mk.injEq, List.append_eq_nil_iff] at complete
      exact absurd complete.2.2 unfinished

theorem decodeHeader_lengths (decoded : decodeHeader bytes = some (header, rest)) :
    header.inslen < 2 ^ 64 ∧ header.newlen < 2 ^ 64 := by
  simp only [decodeHeader, Option.bind_eq_bind, Option.bind_eq_some_iff, Option.pure_def,
    Option.some.injEq, Prod.exists] at decoded
  obtain ⟨_, _, _, _, _, _, _, _, _, _, _, fourth, _, _, fifth, equal⟩ := decoded
  cases equal
  exact ⟨decodeIntFrom_lt fourth, decodeIntFrom_lt fifth⟩

end Headers

section Rounds

variable {state : DecodeState} {buffer : Bytes}

theorem parseWindow_none (inBuffer : state.strayed = false) (short : decodeHeader buffer = none) :
    parseWindow state buffer = .more := by
  simp only [parseWindow, inBuffer, Bool.false_eq_true, if_false, short]

/-- Whatever follows the bytes of a window, the same window is built from them. -/
theorem buildWindow_body {header : WindowHeader} {body : Bytes}
    (length : body.length = header.inslen + header.newlen)
    (few : ∀ count, verifiedCount header body = some count → count < 2 ^ 31) :
    (∀ more, buildWindow header (body ++ more) =
      .stop ⟨.svndiffInvalidOps, "svndiff contains invalid instructions"⟩) ∨
    ∃ window, ∀ more, buildWindow header (body ++ more) =
      .item ⟨header.sviewOffset, header.sviewLen, false⟩ window more := by
  have taken : ∀ more, (body ++ more).take header.inslen = body.take header.inslen :=
    fun more => List.take_append_of_le_length (by omega)
  have counts : ∀ more, verifiedCount header (body ++ more) = verifiedCount header body := by
    intro more
    simp only [verifiedCount, taken]
  cases counted : verifiedCount header body with
  | none =>
      left
      intro more
      rw [buildWindow, counts, counted]
  | some count =>
      right
      obtain ⟨ops, -, -, -, placed⟩ := countAndVerifyInstructions_some _ _ _ _ counted
      refine ⟨⟨header.sviewOffset, header.sviewLen, header.tviewLen, placeOps 0 ops,
        body.drop header.inslen, header.newlen⟩, ?_⟩
      intro more
      have data : (body ++ more).drop header.inslen = body.drop header.inslen ++ more :=
        List.drop_append_of_le_length (by omega)
      have newLength : (body.drop header.inslen).length = header.newlen := by
        rw [List.length_drop]
        omega
      have inside : ¬ (body.drop header.inslen ++ more).length < header.newlen := by
        rw [List.length_append]
        omega
      have notMany : ¬ 2 ^ 31 ≤ count := Nat.not_le.mpr (few count counted)
      rw [buildWindow, counts, counted]
      simp only [if_neg notMany, taken, placed, List.nil_append, data, decide_eq_false inside,
        List.take_left' newLength, List.drop_left' newLength]

/-- The verdict of a steady round depends on the bytes of one window only. -/
theorem parseWindow_resolves (inBuffer : state.strayed = false) (steady : Steady state buffer) :
    ∃ verdict, Resolves parseWindow state buffer verdict ∧
      verdict ≠ .stop SvnError.undefinedBehaviour ∧
      ∀ next window rest, verdict = .item next window rest → next.strayed = false := by
  unfold Steady at steady
  cases decoded : decodeHeader buffer with
  | none =>
      refine ⟨.more, Resolves.more ?_, by simp, by simp⟩
      intro front back split
      apply parseWindow_none inBuffer
      cases read : decodeHeader front with
      | none => rfl
      | some result =>
          have extended := decodeHeader_append read back
          rw [← split, decoded] at extended
          cases extended
  | some result =>
      obtain ⟨header, bytes⟩ := result
      rw [decoded] at steady
      obtain ⟨code, rfl, nonempty, whole⟩ := decodeHeader_split decoded
      have partly : ∀ front back, code = front ++ back → back ≠ [] →
          parseWindow state front = .more := fun front back split unfinished =>
        parseWindow_none inBuffer (decodeHeader_partly whole split unfinished)
      by_cases corrupt : negative header.sviewOffset
      · have stops : ∀ more, parseWindow state (code ++ more) =
            .stop ⟨.svndiffCorruptWindow, "svndiff contains corrupt window header"⟩ := by
          intro more
          simp only [parseWindow, inBuffer, Bool.false_eq_true, if_false, whole, if_pos corrupt]
        exact ⟨_, Resolves.stop nonempty stops partly, by simp [SvnError.undefinedBehaviour],
          by simp⟩
      by_cases backward : SlidesBackward state header
      · have stops : ∀ more, parseWindow state (code ++ more) =
            .stop ⟨.svndiffBackwardView, "svndiff has backwards-sliding source views"⟩ := by
          intro more
          simp only [parseWindow, inBuffer, Bool.false_eq_true, if_false, whole, if_neg corrupt,
            if_pos backward]
        exact ⟨_, Resolves.stop nonempty stops partly, by simp [SvnError.undefinedBehaviour],
          by simp⟩
      by_cases waits : bytes.length < sizeAdd header.inslen header.newlen
      · refine ⟨.more, Resolves.more ?_, by simp, by simp⟩
        intro front back split
        rcases Nat.lt_or_ge front.length code.length with short | long
        · obtain ⟨missing, codeFront, unfinished⟩ := prefix_of_short split short
          exact partly front missing codeFront unfinished
        · obtain ⟨extra, rfl, rfl⟩ := code_of_long split long
          rw [List.length_append] at waits
          simp only [parseWindow, inBuffer, Bool.false_eq_true, if_false, whole, if_neg corrupt,
            if_neg backward]
          rw [if_pos (by omega)]
      obtain ⟨small, few⟩ : header.inslen + header.newlen < 2 ^ 64 ∧
          ∀ count, verifiedCount header bytes = some count → count < 2 ^ 31 := by
        tauto
      rw [sizeAdd_small small] at waits
      obtain ⟨body, rest, rfl, length⟩ : ∃ body rest, bytes = body ++ rest ∧
          body.length = header.inslen + header.newlen :=
        ⟨_, _, (List.take_append_drop (header.inslen + header.newlen) bytes).symm, by
          rw [List.length_take]; omega⟩
      have built : ∀ more, parseWindow state (code ++ body ++ more) =
          buildWindow header (body ++ more) := by
        intro more
        rw [List.append_assoc, parseWindow_header inBuffer corrupt backward small (whole _),
          if_neg (by rw [List.length_append]; omega)]
      have bodyPartly : ∀ front back, code ++ body = front ++ back → back ≠ [] →
          parseWindow state front = .more := fun front back split unfinished =>
        parseWindow_prefix inBuffer corrupt backward small (whole body) length split unfinished
      have windowSome : code ++ body ≠ [] := by simp [nonempty]
      have fewBody : ∀ count, verifiedCount header body = some count → count < 2 ^ 31 := by
        intro count counted
        apply few count
        rw [← counted]
        simp only [verifiedCount]
        rw [List.take_append_of_le_length (by omega)]
      rw [← List.append_assoc]
      rcases buildWindow_body length fewBody with invalid | ⟨window, item⟩
      · exact ⟨_, Resolves.stop windowSome (fun more => (built more).trans (invalid more)) bodyPartly,
          by simp [SvnError.undefinedBehaviour], by simp⟩
      · refine ⟨_, Resolves.item windowSome (fun more => (built more).trans (item more)) bodyPartly,
          by simp, ?_⟩
        rintro next other left ⟨⟩
        rfl

theorem feedAll_stop {B : Type} {consume : Consumer B TxdeltaWindow SvnError} {chunk : Bytes}
    {error : SvnError} (stops : parseWindow state chunk = .stop error) (baton : B)
    (chunks : List Bytes) :
    (feedAll parseWindow consume ⟨state, [], baton⟩ (chunk :: chunks)).2 = some error := by
  simp [feedAll, feed, drain, stops]

/-- A round that is not steady reads bytes that have not arrived, in some way of cutting them. -/
theorem parseWindow_breaks {B : Type} (consume : Consumer B TxdeltaWindow SvnError)
    (inBuffer : state.strayed = false) (unsteady : ¬ Steady state buffer) :
    ∃ chunks, chunks.flatten = buffer ∧ ∀ baton,
      (feedAll parseWindow consume ⟨state, [], baton⟩ chunks).2 =
        some SvnError.undefinedBehaviour := by
  unfold Steady at unsteady
  cases decoded : decodeHeader buffer with
  | none =>
      rw [decoded] at unsteady
      exact absurd trivial unsteady
  | some result =>
      obtain ⟨header, bytes⟩ := result
      rw [decoded] at unsteady
      push Not at unsteady
      obtain ⟨nonnegative, forward, enough, wild⟩ := unsteady
      obtain ⟨inslen, newlen⟩ := decodeHeader_lengths decoded
      obtain ⟨code, rfl, -, whole⟩ := decodeHeader_split decoded
      by_cases small : header.inslen + header.newlen < 2 ^ 64
      · -- too many instructions to count
        obtain ⟨count, counted, many⟩ := wild small
        refine ⟨[code ++ bytes], by simp, fun baton => feedAll_stop ?_ baton []⟩
        rw [sizeAdd_small small] at enough
        rw [parseWindow_header inBuffer nonnegative forward small (whole bytes),
          if_neg (Nat.not_lt.mpr enough), buildWindow, counted]
        simp only [if_pos many]
      · -- the first chunk has as many bytes as the wrapped sum asks for
        have wraps : sizeAdd header.inslen header.newlen =
            header.inslen + header.newlen - 2 ^ 64 := by
          unfold sizeAdd
          omega
        refine ⟨[code ++ bytes.take (sizeAdd header.inslen header.newlen),
          bytes.drop (sizeAdd header.inslen header.newlen)], by simp, fun baton =>
            feedAll_stop ?_ baton _⟩
        have length : (bytes.take (sizeAdd header.inslen header.newlen)).length =
            sizeAdd header.inslen header.newlen := List.length_take_of_le enough
        simp only [parseWindow, inBuffer, Bool.false_eq_true, if_false, whole, if_neg nonnegative,
          if_neg forward, length, lt_irrefl]
        rw [if_pos (by omega)]

end Rounds

section StreamHeader

variable {B : Type} (handler : WindowHandler B)

/-- The result of all writes and the close, from the windows and the ending of the body. -/
def settled (baton : B) (errorOnEarlyClose : Bool) (windows : List TxdeltaWindow)
    (ending : Ending UInt8 DecodeState SvnError) : B × Option SvnError :=
  match consumeAll (windowConsumer handler) baton windows, ending with
  | (after, some error), _ => (after, some error)
  | (after, none), .stops error => (after, some error)
  | (after, none), .waits state kept =>
      closeHandler handler ⟨⟨state, kept, after⟩, 4, errorOnEarlyClose⟩

/-- Every way of cutting a stream with a complete header settles its body. -/
theorem writeAll_settles {chunks : List Bytes} {body : Bytes} {windows : List TxdeltaWindow}
    {ending : Ending UInt8 DecodeState SvnError} (baton : B) (errorOnEarlyClose : Bool)
    (flat : chunks.flatten = svndiffHeader ++ body)
    (course : Course parseWindow ⟨0, 0, false⟩ body windows ending) :
    ∃ next error,
      writeAll handler (txdeltaParseSvndiff baton errorOnEarlyClose) chunks = (next, error) ∧
      Settles (windowConsumer handler) baton windows ending (next.drain, error) ∧
      next.errorOnEarlyClose = errorOnEarlyClose ∧ (error = none → next.headerBytes = 4) := by
  obtain ⟨parts, same, writes⟩ := writeAll_header handler chunks
    (txdeltaParseSvndiff baton errorOnEarlyClose) body (Nat.zero_le _) flat
  have settles := feedAll_course (windowConsumer handler) parts [] baton
    (by rw [same]; exact course) (parseWindow_none rfl rfl)
  obtain ⟨next, wrote, drain, early, four⟩ := writes _ _ rfl
  refine ⟨next, _, wrote, ?_, early, four⟩
  rw [drain]
  exact settles

theorem decodeAll_settled {chunks : List Bytes} {body : Bytes} {windows : List TxdeltaWindow}
    {ending : Ending UInt8 DecodeState SvnError} (baton : B) (errorOnEarlyClose : Bool)
    (flat : chunks.flatten = svndiffHeader ++ body)
    (course : Course parseWindow ⟨0, 0, false⟩ body windows ending) :
    decodeAll handler baton errorOnEarlyClose chunks =
      settled handler baton errorOnEarlyClose windows ending := by
  obtain ⟨next, error, wrote, settles, early, four⟩ :=
    writeAll_settles handler baton errorOnEarlyClose flat course
  unfold decodeAll settled
  unfold Settles at settles
  rw [wrote]
  rcases consumed : consumeAll (windowConsumer handler) baton windows with ⟨after, _ | refused⟩
  · rw [consumed] at settles
    cases ending with
    | stops failure =>
        obtain ⟨rfl, rfl⟩ := settles
        rfl
    | waits state kept =>
        obtain ⟨⟨_, _, _⟩, headerBytes, _⟩ := next
        cases settles
        cases early
        cases four rfl
        rfl
  · rw [consumed] at settles
    obtain ⟨rfl, rfl⟩ := settles
    rfl

/-- A part of the stream header is taken without a look at any window. -/
theorem writeAll_short {chunks : List Bytes} :
    ∀ {baton : DecodeBaton B} {missing : Bytes}, baton.drain.buffer = [] →
      baton.drain.state.strayed = false → baton.headerBytes ≤ 4 →
      svndiffHeader.drop baton.headerBytes = chunks.flatten ++ missing →
      writeAll handler baton chunks =
        ({ baton with headerBytes := baton.headerBytes + chunks.flatten.length }, none) := by
  induction chunks with
  | nil => exact fun _ _ _ _ => rfl
  | cons chunk chunks ih =>
      intro baton missing empty inBuffer few split
      have length := congrArg List.length split
      simp only [List.flatten_cons, List.length_append, List.length_drop, svndiffHeader,
        List.length_cons, List.length_nil] at length
      have whole : min (4 - baton.headerBytes) chunk.length = chunk.length := by omega
      have matching : chunk = (svndiffHeader.drop baton.headerBytes).take chunk.length := by
        rw [split, List.flatten_cons, List.append_assoc, List.take_left' rfl]
      obtain ⟨⟨state, buffer, log⟩, headerBytes, early⟩ := baton
      cases empty
      have idle : feed parseWindow (windowConsumer handler) ⟨state, [], log⟩ [] =
          (⟨state, [], log⟩, none) :=
        feed_more _ log (parseWindow_none inBuffer rfl)
      have later := @ih ⟨⟨state, [], log⟩, headerBytes + chunk.length, early⟩ missing rfl inBuffer
        (by dsimp only at few length ⊢; omega) (by
          dsimp only at split ⊢
          rw [← List.drop_drop, split, List.flatten_cons, List.append_assoc, List.drop_left' rfl])
      rw [writeAll, writeHandler, whole, List.take_length, List.drop_length, idle,
        if_neg (by simpa using matching)]
      dsimp only at later ⊢
      rw [later, List.flatten_cons, List.length_append, Nat.add_assoc]

/-- Bytes that part from the stream header are refused at the first chunk that does. -/
theorem writeAll_mismatch {chunks : List Bytes} :
    ∀ {baton : DecodeBaton B}, baton.drain.buffer = [] →
      baton.drain.state.strayed = false → baton.headerBytes ≤ 4 →
      ¬ chunks.flatten <+: svndiffHeader.drop baton.headerBytes →
      ¬ svndiffHeader.drop baton.headerBytes <+: chunks.flatten →
      ∃ next, writeAll handler baton chunks =
          (next, some ⟨.svndiffInvalidHeader, "svndiff has invalid header"⟩) ∧
        next.drain.baton = baton.drain.baton := by
  induction chunks with
  | nil =>
      intro baton _ _ _ notShort _
      exact absurd (List.nil_prefix) notShort
  | cons chunk chunks ih =>
      intro baton empty inBuffer few notShort notWhole
      obtain ⟨⟨state, buffer, log⟩, headerBytes, early⟩ := baton
      cases empty
      dsimp only at inBuffer few notShort notWhole
      rw [List.flatten_cons] at notShort notWhole
      have headerLength : (svndiffHeader.drop headerBytes).length = 4 - headerBytes := by
        simp [svndiffHeader]
      by_cases mismatch : chunk.take (min (4 - headerBytes) chunk.length) ≠
          (svndiffHeader.drop headerBytes).take (min (4 - headerBytes) chunk.length)
      · rw [writeAll, writeHandler, if_pos mismatch]
        exact ⟨_, rfl, rfl⟩
      · -- a matching chunk that completes the header would be a whole header
        have short : chunk.length < 4 - headerBytes := by
          by_contra long
          push Not at mismatch
          rw [min_eq_left (by omega), ← headerLength, List.take_length] at mismatch
          apply notWhole
          rw [← mismatch]
          exact (List.take_prefix _ _).trans (List.prefix_append _ _)
        have whole : min (4 - headerBytes) chunk.length = chunk.length := by omega
        have matching : chunk = (svndiffHeader.drop headerBytes).take chunk.length := by
          push Not at mismatch
          rwa [whole, List.take_length] at mismatch
        have parts : svndiffHeader.drop headerBytes =
            chunk ++ svndiffHeader.drop (headerBytes + chunk.length) := by
          conv_lhs => rw [← List.take_append_drop chunk.length (svndiffHeader.drop headerBytes),
            ← matching, List.drop_drop]
        have idle : feed parseWindow (windowConsumer handler) ⟨state, [], log⟩ [] =
            (⟨state, [], log⟩, none) :=
          feed_more _ log (parseWindow_none inBuffer rfl)
        rw [parts] at notShort notWhole
        obtain ⟨next, wrote, kept⟩ :=
          @ih ⟨⟨state, [], log⟩, headerBytes + chunk.length, early⟩ rfl inBuffer
            (by dsimp only; omega)
            (fun isPrefix => notShort ((List.prefix_append_right_inj chunk).mpr isPrefix))
            (fun isPrefix => notWhole ((List.prefix_append_right_inj chunk).mpr isPrefix))
        refine ⟨next, ?_, kept⟩
        rw [writeAll, writeHandler, if_neg mismatch]
        dsimp only
        rw [whole, List.drop_length, idle]
        exact wrote

end StreamHeader

theorem recordWindow_passes (log : List (Option TxdeltaWindow)) (window : TxdeltaWindow) :
    (windowConsumer recordWindow log window).2 = none := rfl

theorem consumeAll_recordWindow (windows : List TxdeltaWindow) :
    ∀ log, (consumeAll (windowConsumer recordWindow) log windows).2 = none := by
  induction windows with
  | nil => exact fun _ => rfl
  | cons window windows ih => exact fun log => ih (log ++ [some window])

/-- The rounds of one write of a whole stream are those of its body. -/
theorem writeRounds_body (body : Bytes) :
    writeRounds recordWindow (txdeltaParseSvndiff [] false) (svndiffHeader ++ body) =
      rounds parseWindow (windowConsumer recordWindow) (body.length + 1)
        ⟨⟨0, 0, false⟩, body, []⟩ := by
  unfold writeRounds txdeltaParseSvndiff
  have four : min (4 - 0) (svndiffHeader ++ body).length = 4 := by
    rw [List.length_append]
    simp only [svndiffHeader, List.length_cons, List.length_nil]
    omega
  have taken : (svndiffHeader ++ body).take 4 = svndiffHeader := rfl
  have dropped : (svndiffHeader ++ body).drop 4 = body := rfl
  dsimp only
  rw [four, taken, dropped, if_neg (by simp [svndiffHeader])]
  simp

/-- The steady rounds of a stream determine the outcome of every way of cutting it. -/
theorem chunkInvariant_of_steady {body : Bytes}
    (steady : ∀ round ∈ writeRounds recordWindow (txdeltaParseSvndiff [] false)
      (svndiffHeader ++ body), Steady round.1 round.2) : ChunkInvariant (svndiffHeader ++ body) := by
  rw [writeRounds_body] at steady
  obtain ⟨windows, ending, course, good⟩ := course_of_rounds recordWindow_passes
    (fun state buffer => parseWindow_resolves) (body.length + 1)
    ⟨⟨0, 0, false⟩, body, []⟩ rfl (Nat.lt_succ_self _) steady
  constructor
  · intro early chunks flat
    obtain ⟨next, error, wrote, settles, -⟩ :=
      writeAll_settles recordWindow [] early flat course
    have passed := consumeAll_recordWindow windows []
    unfold Settles at settles
    rcases consumed : consumeAll (windowConsumer recordWindow) [] windows with ⟨after, failure⟩
    rw [consumed] at passed settles
    cases passed
    rw [wrote]
    cases ending with
    | waits state kept =>
        have fine : error = none := congrArg Prod.snd settles
        simp [fine]
    | stops failure =>
        rw [settles.2]
        rintro ⟨⟩
        exact good rfl
  · intro B handler baton early first second flat same
    rw [decodeAll_settled handler baton early flat course,
      decodeAll_settled handler baton early same course]

/-- Bytes that do not hold a whole stream header never reach a window. -/
theorem chunkInvariant_of_headless {bytes : Bytes} (headless : ¬ svndiffHeader <+: bytes) :
    ChunkInvariant bytes := by
  by_cases short : bytes <+: svndiffHeader
  · obtain ⟨missing, split⟩ := short
    have writes : ∀ {B : Type} (handler : WindowHandler B) baton early chunks,
        chunks.flatten = bytes → writeAll handler (txdeltaParseSvndiff baton early) chunks =
          (⟨⟨⟨0, 0, false⟩, [], baton⟩, 0 + bytes.length, early⟩, none) := by
      rintro B handler baton early chunks rfl
      exact writeAll_short handler rfl rfl (Nat.zero_le _) split.symm
    constructor
    · intro early chunks flat
      rw [writes recordWindow [] early chunks flat]
      simp
    · intro B handler baton early first second flat same
      rw [decodeAll, decodeAll, writes handler baton early first flat,
        writes handler baton early second same]
  · have writes : ∀ {B : Type} (handler : WindowHandler B) baton early chunks,
        chunks.flatten = bytes → ∃ next,
          writeAll handler (txdeltaParseSvndiff baton early) chunks =
            (next, some ⟨.svndiffInvalidHeader, "svndiff has invalid header"⟩) ∧
          next.drain.baton = baton := by
      rintro B handler baton early chunks rfl
      exact writeAll_mismatch handler rfl rfl (Nat.zero_le _) short headless
    constructor
    · intro early chunks flat
      obtain ⟨next, wrote, -⟩ := writes recordWindow [] early chunks flat
      rw [wrote]
      simp [SvnError.undefinedBehaviour]
    · intro B handler baton early first second flat same
      obtain ⟨one, wrote, kept⟩ := writes handler baton early first flat
      obtain ⟨two, also, alsoKept⟩ := writes handler baton early second same
      simp only [decodeAll, wrote, also, kept, alsoKept]

/-- Behind the stream header, the parser sees the chunks as they are. -/
theorem writeAll_body {B : Type} (handler : WindowHandler B) (errorOnEarlyClose : Bool)
    (chunks : List Bytes) :
    ∀ drain, (writeAll handler ⟨drain, 4, errorOnEarlyClose⟩ chunks).2 =
      (feedAll parseWindow (windowConsumer handler) drain chunks).2 := by
  induction chunks with
  | nil => exact fun _ => rfl
  | cons chunk chunks ih =>
      intro drain
      have none : min (4 - 4) chunk.length = 0 := by omega
      rw [writeAll, writeHandler, feedAll]
      dsimp only
      rw [none, List.take_zero, List.take_zero, List.drop_zero, if_neg (by simp)]
      rcases feed parseWindow (windowConsumer handler) drain chunk with ⟨next, _ | error⟩
      · exact ih next
      · rfl

theorem writeAll_after_header (errorOnEarlyClose : Bool) (chunks : List Bytes) :
    (writeAll recordWindow (txdeltaParseSvndiff [] errorOnEarlyClose)
        (svndiffHeader :: chunks)).2 =
      (feedAll parseWindow (windowConsumer recordWindow) ⟨⟨0, 0, false⟩, [], []⟩ chunks).2 := by
  have written : writeHandler recordWindow (txdeltaParseSvndiff [] errorOnEarlyClose)
      svndiffHeader = (⟨⟨⟨0, 0, false⟩, [], []⟩, 4, errorOnEarlyClose⟩, none) := rfl
  rw [writeAll, written]
  exact writeAll_body recordWindow errorOnEarlyClose chunks _

theorem steady_of_headless {bytes : Bytes} (headless : ¬ svndiffHeader <+: bytes) :
    ∀ round ∈ writeRounds recordWindow (txdeltaParseSvndiff [] false) bytes,
      Steady round.1 round.2 := by
  unfold writeRounds txdeltaParseSvndiff
  dsimp only
  rw [List.drop_zero, Nat.sub_zero]
  split
  · simp
  · next matching =>
      push Not at matching
      have short : bytes.length < 4 := by
        by_contra long
        apply headless
        rw [min_eq_left (by omega)] at matching
        have taken : svndiffHeader = bytes.take 4 := matching.symm
        rw [taken]
        exact List.take_prefix _ _
      rw [min_eq_right (by omega), List.drop_length]
      intro round member
      have looked : parseWindow ⟨0, 0, false⟩ [] = .more := parseWindow_none rfl rfl
      simp only [rounds, List.append_nil, looked, List.mem_singleton] at member
      rw [member]
      exact trivial

end Subversion.Svndiff
