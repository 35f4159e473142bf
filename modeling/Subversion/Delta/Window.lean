/-
This file models text delta windows and the application of their instructions.
-/

import Subversion.Lib.SelfCopy
import Subversion.Error

namespace Subversion.Delta

open SelfCopy

abbrev Bytes := List UInt8

instance : LawfulBEq Bytes := inferInstanceAs (LawfulBEq (List UInt8))

/-- A text that ends at its first null byte. -/
abbrev CString := { bytes : Bytes // (0 : UInt8) ∉ bytes }

/-- An `apr_off_t` is kept as its 64-bit pattern. The top bit is the sign. -/
def negative (value : Nat) : Prop := 2 ^ 63 ≤ value

instance (value : Nat) : Decidable (negative value) := inferInstanceAs (Decidable (_ ≤ _))

inductive DeltaAction where
  | source
  | target
  | new
  deriving DecidableEq, Repr

structure TxdeltaOp where
  actionCode : DeltaAction
  offset : Nat
  length : Nat
  deriving DecidableEq, Repr

/-- `newData` holds the bytes behind the pointer of `new_data`, and `newLen` its length field. -/
structure TxdeltaWindow where
  sviewOffset : Nat
  sviewLen : Nat
  tviewLen : Nat
  ops : List TxdeltaOp
  newData : Bytes
  newLen : Nat
  deriving DecidableEq, Repr

/-- One instruction extends the target view, or fails one of the assertions. -/
def applyOp (window : TxdeltaWindow) (sbuf tbuf : Bytes) (op : TxdeltaOp) : Option Bytes :=
  if negative op.offset ∨ negative op.length ∨ window.tviewLen < tbuf.length + op.length then none
  else
    match op.actionCode with
    | .source =>
        if op.offset + op.length ≤ window.sviewLen then
          (slice sbuf op.offset op.length).map (tbuf ++ ·)
        else none
    | .target =>
        if op.offset < tbuf.length then some (selfCopy tbuf op.offset op.length) else none
    | .new =>
        if op.offset + op.length ≤ window.newLen then
          (slice window.newData op.offset op.length).map (tbuf ++ ·)
        else none

/-- The instructions build the target view from the source view `sbuf`. -/
def applyInstructions (window : TxdeltaWindow) (sbuf : Bytes) : Option Bytes :=
  match window.ops.foldlM (applyOp window sbuf) [] with
  | some tbuf => if tbuf.length = window.tviewLen then some tbuf else none
  | none => none

theorem applyInstructions_length {window : TxdeltaWindow} {sbuf tbuf : Bytes}
    (applied : applyInstructions window sbuf = some tbuf) : tbuf.length = window.tviewLen := by
  unfold applyInstructions at applied
  split at applied
  · split at applied
    · next equal => exact Option.some.inj applied ▸ equal
    · cases applied
  · cases applied

/-- An instruction only appends to the target view. -/
theorem applyOp_prefix {window : TxdeltaWindow} {sbuf tbuf next : Bytes} {op : TxdeltaOp}
    (applied : applyOp window sbuf tbuf op = some next) : tbuf <+: next := by
  unfold applyOp at applied
  split at applied
  · cases applied
  · split at applied <;> split at applied
    · obtain ⟨bytes, -, rfl⟩ := Option.map_eq_some_iff.mp applied
      exact List.prefix_append _ _
    · cases applied
    · cases applied
      exact selfCopy_prefix _ _ _
    · cases applied
    · obtain ⟨bytes, -, rfl⟩ := Option.map_eq_some_iff.mp applied
      exact List.prefix_append _ _
    · cases applied

theorem applyOp_length {window : TxdeltaWindow} {sbuf tbuf next : Bytes} {op : TxdeltaOp}
    (applied : applyOp window sbuf tbuf op = some next) :
    next.length = tbuf.length + op.length := by
  unfold applyOp at applied
  split at applied
  · cases applied
  · split at applied <;> split at applied
    · obtain ⟨bytes, sliced, rfl⟩ := Option.map_eq_some_iff.mp applied
      rw [List.length_append, slice_length sliced]
    · cases applied
    · next before =>
        cases applied
        exact selfCopy_length tbuf op.offset op.length before
    · cases applied
    · obtain ⟨bytes, sliced, rfl⟩ := Option.map_eq_some_iff.mp applied
      rw [List.length_append, slice_length sliced]
    · cases applied

/-- Only source copies look at the source view. -/
theorem applyOp_sbuf (window : TxdeltaWindow) (first second tbuf : Bytes) {op : TxdeltaOp}
    (other : op.actionCode ≠ .source) :
    applyOp window first tbuf op = applyOp window second tbuf op := by
  unfold applyOp
  cases action : op.actionCode with
  | source => exact absurd action other
  | target => rfl
  | new => rfl

/-- A target copy starts before the current position and stays inside the view. -/
theorem applyOp_target {window : TxdeltaWindow} {sbuf tbuf next : Bytes} {op : TxdeltaOp}
    (applied : applyOp window sbuf tbuf op = some next) (isTarget : op.actionCode = .target) :
    op.offset + op.length < window.tviewLen := by
  unfold applyOp at applied
  split at applied
  · cases applied
  · next room =>
      rw [isTarget] at applied
      dsimp only at applied
      split at applied
      · next before => omega
      · cases applied

/-- Lengths of the target view and of the new data that the instructions have used so far. -/
structure Reached where
  target : Nat
  new : Nat
  deriving DecidableEq, Repr

/-- An instruction fits when it copies known bytes. New data is used in order. -/
def advance (sviewLen : Nat) (reached : Reached) (op : TxdeltaOp) : Option Reached :=
  match op.actionCode with
  | .source =>
      if op.offset + op.length ≤ sviewLen then some ⟨reached.target + op.length, reached.new⟩
      else none
  | .target =>
      if op.offset < reached.target then some ⟨reached.target + op.length, reached.new⟩ else none
  | .new =>
      if op.offset = reached.new then
        some ⟨reached.target + op.length, reached.new + op.length⟩
      else none

/-- The instructions fit the views of the window and use all of its lengths. -/
def TxdeltaWindow.Fits (window : TxdeltaWindow) : Prop :=
  window.ops.foldlM (advance window.sviewLen) ⟨0, 0⟩ = some ⟨window.tviewLen, window.newLen⟩

instance (window : TxdeltaWindow) : Decidable window.Fits :=
  inferInstanceAs (Decidable (_ = _))

theorem advance_target {sviewLen : Nat} {reached next : Reached} {op : TxdeltaOp}
    (fits : advance sviewLen reached op = some next) :
    next.target = reached.target + op.length := by
  unfold advance at fits
  split at fits <;> split at fits <;> cases fits <;> rfl

theorem advance_new {sviewLen : Nat} {reached next : Reached} {op : TxdeltaOp}
    (fits : advance sviewLen reached op = some next) :
    reached.new ≤ next.new ∧ next.new ≤ reached.new + op.length := by
  unfold advance at fits
  split at fits <;> split at fits <;> cases fits <;> dsimp only <;> omega

/-- The positions only grow along the instructions. -/
theorem advance_mono {sviewLen : Nat} (ops : List TxdeltaOp) {reached last : Reached}
    (fits : ops.foldlM (advance sviewLen) reached = some last) :
    reached.target ≤ last.target ∧ reached.new ≤ last.new := by
  induction ops generalizing reached with
  | nil =>
      cases fits
      exact ⟨le_rfl, le_rfl⟩
  | cons op ops ih =>
      simp only [List.foldlM_cons, Option.bind_eq_bind, Option.bind_eq_some_iff] at fits
      obtain ⟨next, first, rest⟩ := fits
      have targets := advance_target first
      have news := advance_new first
      have later := ih rest
      exact ⟨by omega, by omega⟩

/-- The target position is the sum of the lengths. -/
theorem advance_sum {sviewLen : Nat} (ops : List TxdeltaOp) {reached last : Reached}
    (fits : ops.foldlM (advance sviewLen) reached = some last) :
    last.target = reached.target + (ops.map TxdeltaOp.length).sum := by
  induction ops generalizing reached with
  | nil =>
      cases fits
      simp
  | cons op ops ih =>
      simp only [List.foldlM_cons, Option.bind_eq_bind, Option.bind_eq_some_iff] at fits
      obtain ⟨next, first, rest⟩ := fits
      rw [ih rest, advance_target first, List.map_cons, List.sum_cons, Nat.add_assoc]

end Subversion.Delta
