/-
This file states which windows are safe to apply, and when the parser hands out only such windows.
-/

import Subversion.Delta.Svndiff

namespace Subversion.Svndiff

open SelfCopy Framing Delta

/-- The instructions meet every assertion of the applier, starting at the given target position. -/
def OpsSound (window : TxdeltaWindow) : Nat → List TxdeltaOp → Prop
  | tpos, [] => tpos = window.tviewLen
  | tpos, op :: ops =>
      ¬ negative op.offset ∧ ¬ negative op.length ∧
        (match op.actionCode with
        | .source => op.offset + op.length ≤ window.sviewLen
        | .target => op.offset < tpos
        | .new => op.offset + op.length ≤ window.newLen) ∧
        OpsSound window (tpos + op.length) ops

/-- The instructions are sound, and all of the new data has been received. -/
def Sound (window : TxdeltaWindow) : Prop :=
  OpsSound window 0 window.ops ∧ window.newData.length = window.newLen

instance decidableOpsSound (window : TxdeltaWindow) (tpos : Nat) (ops : List TxdeltaOp) :
    Decidable (OpsSound window tpos ops) :=
  match ops with
  | [] => inferInstanceAs (Decidable (_ = _))
  | op :: rest =>
      have := decidableOpsSound window (tpos + op.length) rest
      match equal : op.actionCode with
      | .source => decidable_of_iff (¬ negative op.offset ∧ ¬ negative op.length ∧
          op.offset + op.length ≤ window.sviewLen ∧ OpsSound window (tpos + op.length) rest)
          (by simp [OpsSound, equal])
      | .target => decidable_of_iff (¬ negative op.offset ∧ ¬ negative op.length ∧
          op.offset < tpos ∧ OpsSound window (tpos + op.length) rest) (by simp [OpsSound, equal])
      | .new => decidable_of_iff (¬ negative op.offset ∧ ¬ negative op.length ∧
          op.offset + op.length ≤ window.newLen ∧ OpsSound window (tpos + op.length) rest)
          (by simp [OpsSound, equal])

instance (window : TxdeltaWindow) : Decidable (Sound window) :=
  inferInstanceAs (Decidable (_ ∧ _))

theorem OpsSound.le {window : TxdeltaWindow} {tpos : Nat} {ops : List TxdeltaOp}
    (sound : OpsSound window tpos ops) : tpos ≤ window.tviewLen := by
  induction ops generalizing tpos with
  | nil => exact le_of_eq sound
  | cons op ops ih =>
      have := ih sound.2.2.2
      omega

/-- No assertion of the applier fails on a sound window. -/
theorem applyInstructions_sound {window : TxdeltaWindow} (sound : Sound window) {sbuf : Bytes}
    (view : sbuf.length = window.sviewLen) : ∃ tbuf, applyInstructions window sbuf = some tbuf := by
  have folded : ∀ (ops : List TxdeltaOp) (tbuf : Bytes), OpsSound window tbuf.length ops →
      ∃ final, ops.foldlM (applyOp window sbuf) tbuf = some final ∧
        final.length = window.tviewLen := by
    intro ops
    induction ops with
    | nil =>
        intro tbuf rest
        exact ⟨tbuf, rfl, rest⟩
    | cons op ops ih =>
        intro tbuf rest
        have room := rest.2.2.2.le
        obtain ⟨offset, length, inside, rest⟩ := rest
        obtain ⟨next, applied, nextLength⟩ : ∃ next, applyOp window sbuf tbuf op = some next ∧
            next.length = tbuf.length + op.length := by
          unfold applyOp
          rw [if_neg (by
            intro failed
            rcases failed with bad | bad | bad
            · exact offset bad
            · exact length bad
            · omega)]
          cases action : op.actionCode with
          | source =>
              rw [action] at inside
              refine ⟨_, by simp only [slice, view, if_pos inside, Option.map_some]; rfl, ?_⟩
              simp only [List.length_append, List.length_take, List.length_drop]
              omega
          | target =>
              rw [action] at inside
              exact ⟨_, if_pos inside, selfCopy_length tbuf op.offset op.length inside⟩
          | new =>
              rw [action] at inside
              have data := sound.2
              refine ⟨_, by simp only [slice, data, if_pos inside, Option.map_some]; rfl, ?_⟩
              simp only [List.length_append, List.length_take, List.length_drop]
              omega
        obtain ⟨final, later, finalLength⟩ := ih next (by rw [nextLength]; exact rest)
        exact ⟨final, by simp [applied, later], finalLength⟩
  obtain ⟨final, applied, length⟩ := folded window.ops [] sound.1
  exact ⟨final, by rw [applyInstructions, applied]; simp [length]⟩

/-- All instructions of the range, without their checks. -/
def decodeInstructions : Nat → Bytes → Option (List TxdeltaOp)
  | 0, _ => none
  | _ + 1, [] => some []
  | fuel + 1, bytes => do
      let (op, rest) ← decodeInstruction bytes
      let ops ← decodeInstructions fuel rest
      return op :: ops

/-- New-data instructions are placed one behind the other. -/
def placeOps : Nat → List TxdeltaOp → List TxdeltaOp
  | _, [] => []
  | npos, op :: ops =>
      if op.actionCode = .new then
        { op with offset := npos } :: placeOps (sizeAdd npos op.length) ops
      else op :: placeOps npos ops

/-- The two passes over the instructions agree. -/
theorem countAndVerifyInstructions_some {header : WindowHeader} (fuel : Nat) :
    ∀ (bytes : Bytes) (reached : Reached) (count : Nat),
      countAndVerifyInstructions header fuel bytes reached = some count →
      ∃ ops, decodeInstructions fuel bytes = some ops ∧ ops.length = count ∧
        ops.foldlM (verifyOp header) reached = some ⟨header.tviewLen, header.newlen⟩ ∧
        ∀ npos, decodeOps count bytes npos = some (placeOps npos ops, []) := by
  induction fuel with
  | zero =>
      intro bytes reached count counted
      cases counted
  | succ fuel ih =>
      intro bytes reached count counted
      cases bytes with
      | nil =>
          simp only [countAndVerifyInstructions] at counted
          split at counted
          · next ends =>
              cases counted
              exact ⟨[], rfl, rfl, by rw [ends]; rfl, fun npos => rfl⟩
          · cases counted
      | cons byte tail =>
          simp only [countAndVerifyInstructions, Option.bind_eq_bind, Option.bind_eq_some_iff,
            Option.pure_def, Option.some.injEq] at counted
          obtain ⟨⟨op, rest⟩, decoded, next, verified, less, counted, rfl⟩ := counted
          obtain ⟨ops, decodedRest, length, verifiedRest, placed⟩ := ih rest next less counted
          refine ⟨op :: ops, by simp [decodeInstructions, decoded, decodedRest],
            by simp [length], by simp [verified, verifiedRest], ?_⟩
          intro npos
          rw [decodeOps, decoded]
          simp only [Option.bind_eq_bind, Option.bind_some]
          split
          · next new => simp [placed, placeOps, new]
          · next other => simp [placed, placeOps, other]

/-- Verified instructions are sound when no source copy starts behind the source view. -/
theorem verifyOp_sound {header : WindowHeader} {window : TxdeltaWindow}
    (sview : window.sviewLen = header.sviewLen) (tview : window.tviewLen = header.tviewLen)
    (newLen : window.newLen = header.newlen) (sviewSmall : header.sviewLen < 2 ^ 64)
    (tviewSmall : header.tviewLen < 2 ^ 64) (newSmall : header.newlen < 2 ^ 63)
    (ops : List TxdeltaOp)
    (starts : ∀ op ∈ ops, op.actionCode = .source → op.offset ≤ header.sviewLen) :
    ∀ reached : Reached, reached.target ≤ header.tviewLen → reached.new ≤ header.newlen →
      ops.foldlM (verifyOp header) reached = some ⟨header.tviewLen, header.newlen⟩ →
      OpsSound window reached.target (placeOps reached.new ops) := by
  induction ops with
  | nil =>
      intro reached _ _ verified
      cases verified
      exact tview.symm
  | cons op ops ih =>
      intro reached inTarget inNew verified
      simp only [List.foldlM_cons, Option.bind_eq_bind, Option.bind_eq_some_iff] at verified
      obtain ⟨next, first, rest⟩ := verified
      have targetSub := sizeSub_small inTarget tviewSmall
      have newSub := sizeSub_small inNew (by omega)
      have start := starts op List.mem_cons_self
      have later := ih (fun other member => starts other (List.mem_cons_of_mem _ member)) next
      unfold verifyOp at first
      rw [targetSub, newSub] at first
      split at first
      · cases first
      · next checked =>
          have targetAdd : sizeAdd reached.target op.length = reached.target + op.length :=
            sizeAdd_small (by omega)
          rw [targetAdd] at first
          cases action : op.actionCode with
          | source =>
              simp only [action] at first
              rw [sizeSub_small (start action) sviewSmall] at first
              split at first
              · cases first
              · next inside =>
                  cases first
                  have := start action
                  simp only [placeOps, action, reduceCtorEq, if_false, OpsSound, sview]
                  exact ⟨by tauto, by tauto, by omega, later (by simp only; omega) inNew rest⟩
          | target =>
              simp only [action] at first
              split at first
              · cases first
              · next inside =>
                  cases first
                  simp only [placeOps, action, reduceCtorEq, if_false, OpsSound]
                  exact ⟨by tauto, by tauto, by omega, later (by simp only; omega) inNew rest⟩
          | new =>
              simp only [action] at first
              split at first
              · cases first
              · next inside =>
                  have newAdd : sizeAdd reached.new op.length = reached.new + op.length :=
                    sizeAdd_small (by omega)
                  rw [newAdd] at first
                  cases first
                  simp only [placeOps, action, if_true, OpsSound, newLen, newAdd]
                  refine ⟨by simp only [negative]; omega, by tauto, by omega, ?_⟩
                  exact later (by simp only; omega) (by simp only; omega) rest

/-- A round is safe when it reads only received bytes and hands out only sound windows. -/
def Safe : Verdict UInt8 DecodeState TxdeltaWindow SvnError → Prop
  | .more => True
  | .stop error => error ≠ SvnError.undefinedBehaviour
  | .item _ window _ => Sound window

instance (verdict : Verdict UInt8 DecodeState TxdeltaWindow SvnError) : Decidable (Safe verdict) :=
  match verdict with
  | .more => inferInstanceAs (Decidable True)
  | .stop _ => inferInstanceAs (Decidable (_ ≠ _))
  | .item _ _ _ => inferInstanceAs (Decidable (Sound _))

/-- The lengths do not reach the sign bit, and source copies start inside the source view. -/
def TameInstructions (header : WindowHeader) (bytes : Bytes) : Prop :=
  header.inslen + header.newlen < 2 ^ 63 ∧
    match decodeInstructions ((bytes.take header.inslen).length + 1)
      (bytes.take header.inslen) with
    | none => True
    | some ops => ops.length < 2 ^ 31 ∧
        ∀ op ∈ ops, op.actionCode = .source → op.offset ≤ header.sviewLen

/-- A buffer is tame unless the parser accepts a window that is not. -/
def Tame (state : DecodeState) (buffer : Bytes) : Prop :=
  match decodeHeader buffer with
  | none => True
  | some (header, bytes) =>
      negative header.sviewOffset ∨ SlidesBackward state header ∨
        bytes.length < sizeAdd header.inslen header.newlen ∨
        (header.inslen ≤ bytes.length ∧ verifiedCount header bytes = none) ∨
        TameInstructions header bytes

instance (header : WindowHeader) (bytes : Bytes) : Decidable (TameInstructions header bytes) :=
  match decoded : decodeInstructions ((bytes.take header.inslen).length + 1)
    (bytes.take header.inslen) with
  | none => decidable_of_iff (header.inslen + header.newlen < 2 ^ 63)
      (by rw [TameInstructions, decoded]; exact (iff_of_eq (and_true _)).symm)
  | some ops => decidable_of_iff (header.inslen + header.newlen < 2 ^ 63 ∧ ops.length < 2 ^ 31 ∧
      ∀ op ∈ ops, op.actionCode = .source → op.offset ≤ header.sviewLen)
      (by rw [TameInstructions, decoded])

instance (state : DecodeState) (buffer : Bytes) : Decidable (Tame state buffer) :=
  match decoded : decodeHeader buffer with
  | none => isTrue (by simp [Tame, decoded])
  | some (header, bytes) => decidable_of_iff (negative header.sviewOffset ∨
      SlidesBackward state header ∨ bytes.length < sizeAdd header.inslen header.newlen ∨
      (header.inslen ≤ bytes.length ∧ verifiedCount header bytes = none) ∨
      TameInstructions header bytes) (by simp [Tame, decoded])

theorem decodeIntFrom_lt {bytes rest : Bytes} {prior value : Nat}
    (decoded : decodeIntFrom prior bytes = some (value, rest)) : value < 2 ^ 64 := by
  induction bytes generalizing prior with
  | nil => cases decoded
  | cons byte bytes ih =>
      simp only [decodeIntFrom] at decoded
      split at decoded
      · cases decoded
        exact Nat.mod_lt _ (by decide)
      · exact ih decoded

theorem decodeHeader_small {bytes rest : Bytes} {header : WindowHeader}
    (decoded : decodeHeader bytes = some (header, rest)) :
    header.sviewLen < 2 ^ 64 ∧ header.tviewLen < 2 ^ 64 := by
  simp only [decodeHeader, Option.bind_eq_bind, Option.bind_eq_some_iff, Option.pure_def,
    Option.some.injEq, Prod.exists] at decoded
  obtain ⟨_, _, _, _, _, second, _, _, third, _, _, _, _, _, _, equal⟩ := decoded
  cases equal
  exact ⟨decodeIntFrom_lt second, decodeIntFrom_lt third⟩

/-- A tame window is built from received bytes, and it is sound. -/
theorem buildWindow_safe {header : WindowHeader} {bytes : Bytes}
    (sviewSmall : header.sviewLen < 2 ^ 64) (tviewSmall : header.tviewLen < 2 ^ 64)
    (arrived : header.inslen + header.newlen ≤ bytes.length)
    (tame : TameInstructions header bytes) :
    Safe (buildWindow header bytes) ∧
      ∀ next window rest, buildWindow header bytes = .item next window rest →
        next.strayed = false := by
  obtain ⟨sumSmall, tameOps⟩ := tame
  unfold buildWindow
  cases counted : verifiedCount header bytes with
  | none => exact ⟨by simp [Safe, SvnError.undefinedBehaviour], fun next window rest built => by cases built⟩
  | some count =>
      obtain ⟨ops, decoded, length, verified, placed⟩ :=
        countAndVerifyInstructions_some _ _ _ _ counted
      rw [decoded] at tameOps
      obtain ⟨few, starts⟩ := tameOps
      have inside : ¬ (bytes.drop header.inslen).length < header.newlen := by
        rw [List.length_drop]
        omega
      simp only [if_neg (show ¬ 2 ^ 31 ≤ count by omega), placed, List.nil_append,
        decide_eq_false inside]
      refine ⟨⟨?_, ?_⟩, ?_⟩
      · exact verifyOp_sound rfl rfl rfl sviewSmall tviewSmall (by omega) ops starts ⟨0, 0⟩
          (Nat.zero_le _) (Nat.zero_le _) verified
      · simp only [List.length_take]
        omega
      · intro next window rest built
        cases built
        rfl

/-- A tame round is safe and keeps the read position inside the buffer. -/
theorem parseWindow_safe {state : DecodeState} {buffer : Bytes} (inBuffer : state.strayed = false)
    (tame : Tame state buffer) :
    Safe (parseWindow state buffer) ∧
      ∀ next window rest, parseWindow state buffer = .item next window rest →
        next.strayed = false := by
  unfold parseWindow Tame at *
  rw [inBuffer]
  cases decoded : decodeHeader buffer with
  | none => exact ⟨trivial, fun next window rest parsed => by cases parsed⟩
  | some result =>
      obtain ⟨header, bytes⟩ := result
      obtain ⟨sviewSmall, tviewSmall⟩ := decodeHeader_small decoded
      rw [decoded] at tame
      simp only [Bool.false_eq_true, if_false] at tame ⊢
      split
      · exact ⟨by simp [Safe, SvnError.undefinedBehaviour], fun next window rest parsed => by cases parsed⟩
      · next nonnegative =>
          split
          · exact ⟨by simp [Safe, SvnError.undefinedBehaviour], fun next window rest parsed => by cases parsed⟩
          · next notBackward =>
              split
              · exact ⟨trivial, fun next window rest parsed => by cases parsed⟩
              · next enough =>
                  rcases tame with bad | bad | bad | ⟨present, rejected⟩ | tame
                  · exact absurd bad nonnegative
                  · exact absurd bad notBackward
                  · exact absurd bad enough
                  · rw [if_neg (by omega), buildWindow, rejected]
                    exact ⟨by simp [Safe, SvnError.undefinedBehaviour], fun next window rest parsed => by cases parsed⟩
                  · have small := tame.1
                    rw [sizeAdd_small (by omega)] at enough
                    rw [if_neg (by omega)]
                    exact buildWindow_safe sviewSmall tviewSmall (by omega) tame

/-- The rounds of the parser's loop during one write. -/
def writeRounds {B : Type} (handler : WindowHandler B) (baton : DecodeBaton B) (chunk : Bytes) :
    List (DecodeState × Bytes) :=
  let nheader := min (4 - baton.headerBytes) chunk.length
  if chunk.take nheader ≠ (svndiffHeader.drop baton.headerBytes).take nheader then []
  else
    rounds parseWindow (windowConsumer handler)
      (baton.drain.buffer.length + (chunk.drop nheader).length + 1)
      { baton.drain with buffer := baton.drain.buffer ++ chunk.drop nheader }

/-- The rounds of all writes, up to the first error. -/
def writeAllRounds {B : Type} (handler : WindowHandler B) :
    DecodeBaton B → List Bytes → List (DecodeState × Bytes)
  | _, [] => []
  | baton, chunk :: chunks =>
      writeRounds handler baton chunk ++
        match writeHandler handler baton chunk with
        | (_, some _) => []
        | (next, none) => writeAllRounds handler next chunks

theorem writeHandler_rounds {B : Type} (handler : WindowHandler B) {baton : DecodeBaton B}
    {chunk : Bytes} (inBuffer : baton.drain.state.strayed = false)
    (tame : ∀ round ∈ writeRounds handler baton chunk, Tame round.1 round.2) :
    (∀ round ∈ writeRounds handler baton chunk, round.1.strayed = false) ∧
      (writeHandler handler baton chunk).1.drain.state.strayed = false := by
  unfold writeRounds writeHandler at *
  dsimp only at *
  split
  · next mismatch => exact ⟨by simp, inBuffer⟩
  · next matching =>
      rw [if_neg matching] at tame
      exact rounds_invariant (windowConsumer handler) (fun state => state.strayed = false)
        (fun state buffer next window rest holds tame parsed =>
          (parseWindow_safe holds tame).2 next window rest parsed) _ _ inBuffer tame

/-- Every round of a run of tame writes is safe. -/
theorem writeAllRounds_inBuffer {B : Type} (handler : WindowHandler B) (chunks : List Bytes) :
    ∀ baton : DecodeBaton B, baton.drain.state.strayed = false →
      (∀ round ∈ writeAllRounds handler baton chunks, Tame round.1 round.2) →
      ∀ round ∈ writeAllRounds handler baton chunks, round.1.strayed = false := by
  induction chunks with
  | nil => simp [writeAllRounds]
  | cons chunk chunks ih =>
      intro baton inBuffer tame round member
      rw [writeAllRounds] at tame member
      obtain ⟨first, after⟩ := writeHandler_rounds handler inBuffer
        (fun round member => tame round (List.mem_append_left _ member))
      rcases List.mem_append.mp member with now | later
      · exact first round now
      · rcases written : writeHandler handler baton chunk with ⟨next, _ | error⟩
        · simp only [written] at tame later after
          exact ih next after
            (fun round member => tame round (List.mem_append_right _ member)) round later
        · simp [written] at later

/-- Every window that a run of tame writes hands to its consumer is sound. -/
theorem parser_hands_sound_windows {B : Type} (handler : WindowHandler B) (baton : B)
    (errorOnEarlyClose : Bool) (chunks : List Bytes)
    (tame : ∀ round ∈ writeAllRounds handler (txdeltaParseSvndiff baton errorOnEarlyClose) chunks,
      Tame round.1 round.2) :
    ∀ round ∈ writeAllRounds handler (txdeltaParseSvndiff baton errorOnEarlyClose) chunks,
      Safe (parseWindow round.1 round.2) := by
  intro round member
  exact (parseWindow_safe (writeAllRounds_inBuffer handler chunks _ rfl tame round member)
    (tame round member)).1

/-- A consumer that records the windows it receives. -/
def recordWindow : WindowHandler (List (Option TxdeltaWindow)) := fun log window =>
  (log ++ [window], none)

/-- One window that inserts a byte and copies it, written in two chunks. -/
theorem parser_hands_sound_windows_two_chunks :
    (writeAll recordWindow (txdeltaParseSvndiff [] true)
        [[83, 86, 78, 0, 0, 0], [3, 3, 1, 129, 66, 0, 7]]).1.drain.baton =
      [some ⟨0, 0, 3, [⟨.new, 0, 1⟩, ⟨.target, 0, 2⟩], [7], 1⟩] ∧
      ∀ round ∈ writeAllRounds recordWindow (txdeltaParseSvndiff [] true)
          [[83, 86, 78, 0, 0, 0], [3, 3, 1, 129, 66, 0, 7]],
        Safe (parseWindow round.1 round.2) :=
  ⟨by decide, parser_hands_sound_windows recordWindow [] true _ (by decide)⟩

/-- With an empty source view, a copy of one byte at offset one passes: `0 - 1` wraps around. -/
theorem parser_hands_unsound_window :
    (writeAll recordWindow (txdeltaParseSvndiff [] true)
        [[83, 86, 78, 0, 0, 0, 1, 2, 0, 1, 1]]).1.drain.baton =
      [some ⟨0, 0, 1, [⟨.source, 1, 1⟩], [], 0⟩] ∧
      ¬ Sound ⟨0, 0, 1, [⟨.source, 1, 1⟩], [], 0⟩ := by
  decide

end Subversion.Svndiff
