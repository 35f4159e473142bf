/-
This file shows what the handler makes of windows whose source views overlap or leave gaps.
-/

import Subversion.Delta.TextDelta

namespace Subversion.Delta

open SelfCopy Framing

/-- The range of the source that the window names. -/
def TxdeltaWindow.view (window : TxdeltaWindow) (source : Bytes) : Bytes :=
  (source.drop window.sviewOffset).take window.sviewLen

/-- The text that the windows describe. -/
def deltaText (source : Bytes) : List TxdeltaWindow → Option Bytes
  | [] => some []
  | window :: windows => do
      let first ← applyInstructions window (window.view source)
      let rest ← deltaText source windows
      some (first ++ rest)

/-- No view is negative or slides backwards from the last one, which ran from `start` to `stop`,
and no instruction fails an assertion. The assertions do not look at the bytes of a view. -/
def Accepted : Nat → Nat → List TxdeltaWindow → Prop
  | _, _, [] => True
  | start, stop, window :: windows =>
      start ≤ window.sviewOffset ∧ stop ≤ window.sviewOffset + window.sviewLen ∧
        window.sviewOffset + window.sviewLen < 2 ^ 63 ∧
        (∃ view tbuf, view.length = window.sviewLen ∧ applyInstructions window view = some tbuf) ∧
        Accepted window.sviewOffset (window.sviewOffset + window.sviewLen) windows

/-- Every view that is not empty lies inside the source. -/
def Covers (source : Bytes) (windows : List TxdeltaWindow) : Prop :=
  ∀ window ∈ windows, 0 < window.sviewLen →
    window.sviewOffset + window.sviewLen ≤ source.length

/-- The handler succeeds and writes the text that the windows describe. -/
def WritesText (source : Bytes) (windows : List TxdeltaWindow) : Prop :=
  ∃ final, consumeAll applyWindow (txdeltaApply source) (windows.map some ++ [none]) =
    (final, none) ∧ deltaText source windows = some final.target

def TxdeltaWindow.CopiesSource (window : TxdeltaWindow) : Prop :=
  ∃ op ∈ window.ops, op.actionCode = .source ∧ 0 < op.length

/-- From the first window that starts behind the end of the last view, no window copies bytes of
its source view. -/
def NoCopyAfterGap : Nat → List TxdeltaWindow → Prop
  | _, [] => True
  | stop, window :: windows =>
      if stop < window.sviewOffset then ∀ later ∈ window :: windows, ¬ later.CopiesSource
      else NoCopyAfterGap (window.sviewOffset + window.sviewLen) windows

/-- The windows with their views moved to where the stream stands. -/
def closeGaps : Nat → Nat → List TxdeltaWindow → List TxdeltaWindow
  | _, _, [] => []
  | stop, lag, window :: windows =>
      let lag := lag + (window.sviewOffset - stop)
      { window with sviewOffset := window.sviewOffset - lag } ::
        closeGaps (window.sviewOffset + window.sviewLen) lag windows

section Instructions

variable {window : TxdeltaWindow} {first second : Bytes}

/-- The assertions depend on the lengths of the buffers only. -/
theorem applyOp_lengths (views : first.length = second.length) {one two : Bytes}
    (targets : one.length = two.length) {op : TxdeltaOp} {next : Bytes}
    (applied : applyOp window first one op = some next) :
    ∃ other, applyOp window second two op = some other := by
  unfold applyOp at applied ⊢
  rw [targets] at applied
  split at applied
  · cases applied
  · next allowed =>
      rw [if_neg allowed]
      cases action : op.actionCode <;> simp only [action] at applied ⊢
      all_goals
        split at applied
        · next room => simp_all [slice]
        · cases applied

theorem foldlM_applyOp_lengths (views : first.length = second.length) (ops : List TxdeltaOp) :
    ∀ {one two last : Bytes}, one.length = two.length →
      ops.foldlM (applyOp window first) one = some last →
      ∃ other, ops.foldlM (applyOp window second) two = some other ∧ other.length = last.length := by
  induction ops with
  | nil =>
      intro one two last targets folded
      cases folded
      exact ⟨two, rfl, targets.symm⟩
  | cons op ops ih =>
      intro one two last targets folded
      simp only [List.foldlM_cons, Option.bind_eq_bind, Option.bind_eq_some_iff] at folded
      obtain ⟨next, applied, rest⟩ := folded
      obtain ⟨other, same⟩ := applyOp_lengths views targets applied
      have lengths : next.length = other.length := by
        rw [applyOp_length applied, applyOp_length same, targets]
      obtain ⟨final, folded, length⟩ := ih lengths rest
      exact ⟨final, by simp [same, folded], length⟩

theorem applyInstructions_lengths (views : first.length = second.length) {tbuf : Bytes}
    (applied : applyInstructions window first = some tbuf) :
    ∃ other, applyInstructions window second = some other := by
  have length := applyInstructions_length applied
  unfold applyInstructions at applied ⊢
  split at applied
  · next last folded =>
      obtain ⟨other, same, otherLength⟩ := foldlM_applyOp_lengths views window.ops rfl folded
      split at applied
      · cases applied
        rw [same]
        exact ⟨other, if_pos (otherLength.trans length)⟩
      · cases applied
  · cases applied

/-- Without source copies, the bytes of the view do not matter. -/
theorem applyInstructions_no_copy (views : first.length = second.length)
    (copies : ¬ window.CopiesSource) :
    applyInstructions window first = applyInstructions window second := by
  have ops : ∀ op ∈ window.ops, ∀ tbuf,
      applyOp window first tbuf op = applyOp window second tbuf op := by
    intro op member tbuf
    by_cases isSource : op.actionCode = .source
    · have empty : op.length = 0 := by
        by_contra positive
        exact copies ⟨op, member, isSource, by omega⟩
      simp [applyOp, isSource, empty, slice, views]
    · exact applyOp_sbuf window first second tbuf isSource
  have folds : ∀ (ops : List TxdeltaOp), (∀ op ∈ ops, ∀ tbuf,
      applyOp window first tbuf op = applyOp window second tbuf op) → ∀ tbuf,
      ops.foldlM (applyOp window first) tbuf = ops.foldlM (applyOp window second) tbuf := by
    intro ops
    induction ops with
    | nil => exact fun _ _ => rfl
    | cons op ops ih =>
        intro same tbuf
        rw [List.foldlM_cons, List.foldlM_cons, same op List.mem_cons_self]
        congr 1
        funext next
        exact ih (fun later member => same later (List.mem_cons_of_mem _ member)) next
  unfold applyInstructions
  rw [folds window.ops ops]

/-- Instructions only append, and they append their lengths. -/
theorem foldlM_applyOp_grows (ops : List TxdeltaOp) :
    ∀ {tbuf last : Bytes}, ops.foldlM (applyOp window first) tbuf = some last →
      tbuf <+: last ∧ last.length = tbuf.length + (ops.map TxdeltaOp.length).sum := by
  induction ops with
  | nil =>
      intro tbuf last folded
      cases folded
      exact ⟨List.prefix_rfl, rfl⟩
  | cons op ops ih =>
      intro tbuf last folded
      simp only [List.foldlM_cons, Option.bind_eq_bind, Option.bind_eq_some_iff] at folded
      obtain ⟨next, applied, rest⟩ := folded
      obtain ⟨later, length⟩ := ih rest
      have grown := applyOp_prefix applied
      refine ⟨grown.trans later, ?_⟩
      rw [length, applyOp_length applied, List.map_cons, List.sum_cons, Nat.add_assoc]

/-- A source copy puts the first byte that it names at its place in the target view. -/
theorem applyInstructions_copy {tbuf : Bytes} {before after : List TxdeltaOp} {op : TxdeltaOp}
    (applied : applyInstructions window first = some tbuf)
    (ops : window.ops = before ++ op :: after) (isSource : op.actionCode = .source)
    (positive : 0 < op.length) :
    op.offset < window.sviewLen ∧
      tbuf[(before.map TxdeltaOp.length).sum]? = first[op.offset]? := by
  unfold applyInstructions at applied
  split at applied
  · next last folded =>
      split at applied
      · cases applied
        rw [ops, List.foldlM_append] at folded
        simp only [List.foldlM_cons, Option.bind_eq_bind, Option.bind_eq_some_iff] at folded
        obtain ⟨middle, earlier, next, copied, rest⟩ := folded
        obtain ⟨-, place⟩ := foldlM_applyOp_grows before earlier
        obtain ⟨final, rfl⟩ := (foldlM_applyOp_grows after rest).1
        rw [List.length_nil, Nat.zero_add] at place
        unfold applyOp at copied
        rw [isSource] at copied
        split at copied
        · cases copied
        · dsimp only at copied
          split at copied
          · next room =>
              obtain ⟨bytes, sliced, rfl⟩ := Option.map_eq_some_iff.mp copied
              obtain ⟨inside, rfl⟩ := slice_eq_some sliced
              refine ⟨by omega, ?_⟩
              rw [← place, List.append_assoc, List.getElem?_append_right le_rfl, Nat.sub_self,
                List.getElem?_append_left (by simp; omega), List.getElem?_take_of_lt positive,
                List.getElem?_drop, Nat.add_zero]
          · cases copied
      · cases applied
  · cases applied

end Instructions

theorem TxdeltaWindow.view_length {window : TxdeltaWindow} {source : Bytes}
    (covered : 0 < window.sviewLen → window.sviewOffset + window.sviewLen ≤ source.length) :
    (window.view source).length = window.sviewLen := by
  rw [TxdeltaWindow.view, List.length_take, List.length_drop]
  omega

/-- Accepted instructions apply to every view of the right length. -/
theorem Accepted.applies {start stop : Nat} {window : TxdeltaWindow}
    {windows : List TxdeltaWindow} (accepted : Accepted start stop (window :: windows))
    {view : Bytes} (length : view.length = window.sviewLen) :
    ∃ tbuf, applyInstructions window view = some tbuf := by
  obtain ⟨-, -, -, ⟨other, tbuf, same, applied⟩, -⟩ := accepted
  exact applyInstructions_lengths (same.trans length.symm) applied

theorem deltaText_cons {source : Bytes} {window : TxdeltaWindow} {windows : List TxdeltaWindow}
    {first rest : Bytes} (applied : applyInstructions window (window.view source) = some first)
    (later : deltaText source windows = some rest) :
    deltaText source (window :: windows) = some (first ++ rest) := by
  simp [deltaText, applied, later]

/-- The handler's view of the source is `lag` bytes behind the offset that it records. -/
def ApplyBaton.ahead (baton : ApplyBaton) (lag : Nat) : ApplyBaton :=
  { baton with sbufOffset := baton.sbufOffset + lag }

section Lagging

variable {source : Bytes} {baton : ApplyBaton} {read lag : Nat} {window : TxdeltaWindow}

/-- Without a gap, the handler works as on a window that starts `lag` bytes earlier. -/
theorem slideSource_moved (baton : ApplyBaton) (le : lag ≤ window.sviewOffset) :
    slideSource (baton.ahead lag) window =
      (slideSource baton { window with sviewOffset := window.sviewOffset - lag }).ahead lag := by
  have moves : window.sviewOffset ≠ baton.sbufOffset + lag ↔
      window.sviewOffset - lag ≠ baton.sbufOffset := by omega
  have overlaps : window.sviewOffset < baton.sbufOffset + lag + baton.sbuf.length ↔
      window.sviewOffset - lag < baton.sbufOffset + baton.sbuf.length := by omega
  have start : window.sviewOffset - (baton.sbufOffset + lag) =
      window.sviewOffset - lag - baton.sbufOffset := by omega
  simp only [slideSource, ApplyBaton.ahead, moves, overlaps, start]
  split
  · simp only [ApplyBaton.mk.injEq, true_and]
    omega
  · rfl

/-- A gap empties the buffer, and the stream is not moved. -/
theorem slideSource_ahead (viewing : baton.Viewing source read)
    (forward : baton.sbufOffset + lag ≤ window.sviewOffset) :
    ∃ slid : ApplyBaton, slideSource (baton.ahead lag) window =
        slid.ahead (lag + (window.sviewOffset - (read + lag))) ∧ slid.Viewing source read ∧
      slid.sbufOffset = window.sviewOffset - (lag + (window.sviewOffset - (read + lag))) ∧
      slid.target = baton.target := by
  have ends := viewing.ends
  rcases Nat.lt_or_ge (read + lag) window.sviewOffset with gap | overlaps
  · refine ⟨{ baton with
      sbufSize := sizeBuffer baton.sbufSize window.sviewLen
      sbuf := []
      sbufOffset := read }, ?_, ⟨viewing.opened, rfl, viewing.inside, by simp, viewing.unread⟩,
      by simp only; omega, rfl⟩
    unfold slideSource ApplyBaton.ahead
    rw [if_pos (Or.inl (by simp only; omega)), if_neg (by simp only; omega)]
    simp only [ApplyBaton.mk.injEq, true_and]
    omega
  · have same : lag + (window.sviewOffset - (read + lag)) = lag := by omega
    rw [same]
    obtain ⟨slid, offset, target⟩ := slideSource_viewing viewing
      (show baton.sbufOffset ≤
        ({ window with sviewOffset := window.sviewOffset - lag } : TxdeltaWindow).sviewOffset by
        dsimp only; omega) (by dsimp only; omega)
    exact ⟨_, slideSource_moved baton (by omega), slid, offset, target⟩

theorem readSource_ahead {next : ApplyBaton} (reads : readSource baton
      { window with sviewOffset := window.sviewOffset - lag } = (next, none)) :
    readSource (baton.ahead lag) window = (next.ahead lag, none) := by
  simp only [readSource, ApplyBaton.ahead] at reads ⊢
  split at reads
  · next short =>
      split at reads
      · cases reads
      · next complete =>
          cases reads
          exact (if_pos short).trans (if_neg complete)
  · next full =>
      cases reads
      exact if_neg full

/-- One window appends its instructions' text, taken from where the stream stands. -/
theorem applyWindow_ahead (viewing : baton.Viewing source read)
    (forward : baton.sbufOffset + lag ≤ window.sviewOffset)
    (reaches : read + lag ≤ window.sviewOffset + window.sviewLen)
    (small : window.sviewOffset + window.sviewLen < 2 ^ 63) {later : Nat}
    (isLater : later = lag + (window.sviewOffset - (read + lag)))
    (inside : window.sviewOffset - later + window.sviewLen ≤ source.length) {tbuf : Bytes}
    (applied : applyInstructions window
      ((source.drop (window.sviewOffset - later)).take window.sviewLen) = some tbuf) :
    ∃ next : ApplyBaton, applyWindow (baton.ahead lag) (some window) = (next.ahead later, none) ∧
      next.Viewing source (window.sviewOffset - later + window.sviewLen) ∧
      next.sbufOffset = window.sviewOffset - later ∧ next.target = baton.target ++ tbuf := by
  have ends := viewing.ends
  obtain ⟨slid, slides, slidViewing, offset, kept⟩ := slideSource_ahead viewing forward
  rw [← isLater] at slides offset
  obtain ⟨next, reads, nextViewing, nextOffset, nextTarget, sbuf⟩ := readSource_viewing slidViewing
    (show slid.sbufOffset =
      ({ window with sviewOffset := window.sviewOffset - later } : TxdeltaWindow).sviewOffset
      from offset) (by dsimp only; omega) inside
  have allowed : ¬ (negative window.sviewOffset ∨ window.sviewOffset < (baton.ahead lag).sbufOffset ∨
      (window.sviewOffset + window.sviewLen) % 2 ^ 64 <
        ((baton.ahead lag).sbufOffset + (baton.ahead lag).sbuf.length) % 2 ^ 64) := by
    simp only [negative, ApplyBaton.ahead]
    omega
  have opened : (baton.ahead lag).closed = false := viewing.opened
  refine ⟨{ next with target := next.target ++ tbuf }, ?_,
    ⟨nextViewing.opened, nextViewing.ends, nextViewing.inside, nextViewing.view,
      nextViewing.unread⟩, nextOffset, by simp only [nextTarget, kept]⟩
  have played : applyInstructions window (next.ahead later).sbuf = some tbuf := by
    rw [← applied]
    exact congrArg _ sbuf
  unfold applyWindow
  rw [opened]
  simp only [Bool.false_eq_true, if_false, if_neg allowed, slides, readSource_ahead reads, played]
  rfl

/-- The handler writes the text of the windows with their gaps closed. -/
theorem applyWindow_closeGaps {windows : List TxdeltaWindow} :
    ∀ {baton : ApplyBaton} {read lag : Nat}, baton.Viewing source read →
      Accepted (baton.sbufOffset + lag) (read + lag) windows → Covers source windows →
      ∃ final text, consumeAll applyWindow (baton.ahead lag) (windows.map some ++ [none]) =
          (final, none) ∧ final.target = baton.target ++ text ∧
        deltaText source (closeGaps (read + lag) lag windows) = some text := by
  induction windows with
  | nil =>
      intro baton read lag viewing accepted covers
      have opened : (baton.ahead lag).closed = false := viewing.opened
      refine ⟨{ baton.ahead lag with closed := true }, [], ?_, (List.append_nil _).symm, rfl⟩
      simp [consumeAll, applyWindow, opened]
  | cons window windows ih =>
      intro baton read lag viewing accepted covers
      have ends := viewing.ends
      have inSource := viewing.inside
      have covered := covers window List.mem_cons_self
      have whole := accepted
      obtain ⟨forward, reaches, small, -, rest⟩ := accepted
      generalize isLater : lag + (window.sviewOffset - (read + lag)) = later
      have inside : window.sviewOffset - later + window.sviewLen ≤ source.length := by omega
      obtain ⟨tbuf, applied⟩ := whole.applies
        (show ((source.drop (window.sviewOffset - later)).take window.sviewLen).length =
          window.sviewLen by rw [List.length_take, List.length_drop]; omega)
      obtain ⟨next, handled, nextViewing, offset, written⟩ :=
        applyWindow_ahead viewing forward reaches small isLater.symm inside applied
      have back : next.sbufOffset + later = window.sviewOffset := by omega
      have stops : window.sviewOffset - later + window.sviewLen + later =
          window.sviewOffset + window.sviewLen := by omega
      obtain ⟨final, text, consumed, target, described⟩ := ih nextViewing
        (by rw [back, stops]; exact rest)
        (fun other member => covers other (List.mem_cons_of_mem _ member))
      rw [stops] at described
      refine ⟨final, tbuf ++ text, ?_, by rw [target, written, List.append_assoc], ?_⟩
      · simp only [List.map_cons, List.cons_append, consumeAll, handled]
        exact consumed
      · simp only [closeGaps, isLater]
        exact deltaText_cons applied described

end Lagging

/-- Closing the gaps does not matter to windows that copy nothing from the source. -/
theorem closeGaps_no_copy {source : Bytes} {windows : List TxdeltaWindow} :
    ∀ {start stop lag : Nat}, lag ≤ start → start ≤ stop → Accepted start stop windows →
      Covers source windows → (∀ window ∈ windows, ¬ window.CopiesSource) →
      deltaText source (closeGaps stop lag windows) = deltaText source windows := by
  induction windows with
  | nil => exact fun _ _ _ _ _ => rfl
  | cons window windows ih =>
      intro start stop lag behind ordered accepted covers noCopy
      have covered := covers window List.mem_cons_self
      obtain ⟨forward, reaches, -, -, rest⟩ := accepted
      simp only [closeGaps]
      generalize isLater : lag + (window.sviewOffset - stop) = later
      have same : applyInstructions { window with sviewOffset := window.sviewOffset - later }
          (TxdeltaWindow.view { window with sviewOffset := window.sviewOffset - later } source) =
          applyInstructions window (window.view source) := by
        apply applyInstructions_no_copy _ (noCopy window List.mem_cons_self)
        rw [TxdeltaWindow.view_length covered]
        apply TxdeltaWindow.view_length
        dsimp only
        omega
      have tail := ih (show later ≤ window.sviewOffset by omega) (Nat.le_add_right _ _) rest
        (fun other member => covers other (List.mem_cons_of_mem _ member))
        (fun other member => noCopy other (List.mem_cons_of_mem _ member))
      rw [deltaText, deltaText, same, tail]

theorem NoCopyAfterGap.closeGaps_text {source : Bytes} {windows : List TxdeltaWindow} :
    ∀ {start stop : Nat}, start ≤ stop → NoCopyAfterGap stop windows →
      Accepted start stop windows → Covers source windows →
      deltaText source (closeGaps stop 0 windows) = deltaText source windows := by
  induction windows with
  | nil => exact fun _ _ _ _ => rfl
  | cons window windows ih =>
      intro start stop ordered condition accepted covers
      unfold NoCopyAfterGap at condition
      split at condition
      · exact closeGaps_no_copy (Nat.zero_le _) ordered accepted covers condition
      · next overlaps =>
          obtain ⟨-, -, -, -, rest⟩ := accepted
          have tail := ih (Nat.le_add_right _ _) condition rest
            (fun other member => covers other (List.mem_cons_of_mem _ member))
          have noGap : window.sviewOffset - stop = 0 := by omega
          simp only [closeGaps, noGap, Nat.sub_zero, Nat.add_zero]
          rw [deltaText, deltaText, tail]

/-- A source that is zero but for one byte. -/
def markedSource (length place : Nat) : Bytes := (List.replicate length 0).set place 1

/-- A moved view with a source copy is told apart by a source with one marked byte. -/
theorem TxdeltaWindow.CopiesSource.moved {window : TxdeltaWindow} (copies : window.CopiesSource)
    {bound lag : Nat} (inside : window.sviewOffset + window.sviewLen ≤ bound) (positive : 0 < lag)
    (le : lag ≤ window.sviewOffset) :
    ∃ source : Bytes, source.length = bound ∧ ∀ first second,
      applyInstructions window (window.view source) = some first →
      applyInstructions window ((source.drop (window.sviewOffset - lag)).take window.sviewLen) =
        some second → first ≠ second := by
  obtain ⟨op, member, isSource, some⟩ := copies
  obtain ⟨before, after, ops⟩ := List.append_of_mem member
  refine ⟨markedSource bound (window.sviewOffset + op.offset), by simp [markedSource], ?_⟩
  rintro first second applied moved rfl
  obtain ⟨small, true⟩ := applyInstructions_copy applied ops isSource some
  obtain ⟨-, false⟩ := applyInstructions_copy moved ops isSource some
  rw [true, TxdeltaWindow.view, List.getElem?_take_of_lt small, List.getElem?_take_of_lt small,
    List.getElem?_drop, List.getElem?_drop, markedSource, List.getElem?_set_self (by simp; omega),
    List.getElem?_set_ne (by omega), List.getElem?_replicate, if_pos (by omega)] at false
  cases false

/-- Equal texts are made of equal pieces. -/
theorem deltaText_cons_eq {source : Bytes} {one two : TxdeltaWindow}
    {windows others : List TxdeltaWindow} {first second : Bytes}
    (applied : applyInstructions one (one.view source) = some first)
    (also : applyInstructions two (two.view source) = some second)
    (lengths : one.tviewLen = two.tviewLen) {text : Bytes}
    (left : deltaText source (one :: windows) = some text)
    (right : deltaText source (two :: others) = some text) :
    first = second ∧ ∃ rest, deltaText source windows = some rest ∧
      deltaText source others = some rest := by
  simp only [deltaText, applied, also, Option.bind_eq_bind, Option.bind_some,
    Option.bind_eq_some_iff, Option.some.injEq] at left right
  obtain ⟨rest, later, rfl⟩ := left
  obtain ⟨other, otherLater, same⟩ := right
  have pieces := List.append_inj same (by
    rw [applyInstructions_length also, applyInstructions_length applied, lengths])
  exact ⟨pieces.1.symm, rest, later, pieces.2 ▸ otherLater⟩

/-- When no source tells the two texts apart, no window behind a gap copies from its view. -/
theorem noCopy_of_texts {bound : Nat} {windows : List TxdeltaWindow} :
    ∀ {start stop lag : Nat}, lag ≤ start → start ≤ stop → Accepted start stop windows →
      (∀ window ∈ windows, window.sviewOffset + window.sviewLen ≤ bound) →
      (∀ source : Bytes, source.length = bound → ∃ text,
        deltaText source (closeGaps stop lag windows) = some text ∧
          deltaText source windows = some text) →
      (0 < lag → ∀ window ∈ windows, ¬ window.CopiesSource) ∧
        (lag = 0 → NoCopyAfterGap stop windows) := by
  induction windows with
  | nil => exact fun _ _ _ _ _ => ⟨by simp, fun _ => trivial⟩
  | cons window windows ih =>
      intro start stop lag behind ordered accepted within texts
      have inside := within window List.mem_cons_self
      have whole := accepted
      obtain ⟨forward, reaches, -, -, rest⟩ := accepted
      simp only [closeGaps] at texts
      generalize isLater : lag + (window.sviewOffset - stop) = later at texts
      have le : later ≤ window.sviewOffset := by omega
      -- every source of this length makes the first pieces and the remaining texts agree
      have pieces : ∀ source : Bytes, source.length = bound → ∃ piece,
          applyInstructions window (window.view source) = some piece ∧
          applyInstructions window ((source.drop (window.sviewOffset - later)).take
            window.sviewLen) = some piece ∧
          ∃ text, deltaText source (closeGaps (window.sviewOffset + window.sviewLen) later
            windows) = some text ∧ deltaText source windows = some text := by
        intro source length
        obtain ⟨text, closed, described⟩ := texts source length
        obtain ⟨piece, applied⟩ := whole.applies
          (TxdeltaWindow.view_length fun _ => length ▸ inside)
        obtain ⟨other, moved⟩ := whole.applies
          (show ((source.drop (window.sviewOffset - later)).take window.sviewLen).length =
            window.sviewLen by rw [List.length_take, List.length_drop]; omega)
        obtain ⟨rfl, remaining, left, right⟩ := deltaText_cons_eq
          (show applyInstructions { window with sviewOffset := window.sviewOffset - later }
            (TxdeltaWindow.view { window with sviewOffset := window.sviewOffset - later } source) =
              some other from moved) applied rfl closed described
        exact ⟨other, applied, moved, remaining, left, right⟩
      obtain ⟨copiesLater, gapLater⟩ := ih le (Nat.le_add_right _ _) rest
        (fun other member => within other (List.mem_cons_of_mem _ member))
        (fun source length => by
          obtain ⟨-, -, -, agree⟩ := pieces source length
          exact agree)
      have here : 0 < later → ¬ window.CopiesSource := by
        intro positive copies
        obtain ⟨source, length, distinct⟩ := copies.moved inside positive le
        obtain ⟨piece, applied, moved, -⟩ := pieces source length
        exact distinct piece piece applied moved rfl
      have all : 0 < later → ∀ other ∈ window :: windows, ¬ other.CopiesSource := by
        intro positive
        rw [List.forall_mem_cons]
        exact ⟨here positive, copiesLater positive⟩
      refine ⟨fun positive => all (by omega), ?_⟩
      intro noLag
      unfold NoCopyAfterGap
      split
      · exact all (by omega)
      · exact gapLater (by omega)

/-- For accepted windows, the handler writes the described text from every source exactly when no
window behind a gap copies from its source view. -/
theorem applyWindow_writes_text_iff (windows : List TxdeltaWindow)
    (accepted : Accepted 0 0 windows) :
    (∀ source, Covers source windows → WritesText source windows) ↔
      NoCopyAfterGap 0 windows := by
  have runs : ∀ source, Covers source windows → ∃ final,
      consumeAll applyWindow (txdeltaApply source) (windows.map some ++ [none]) = (final, none) ∧
        deltaText source (closeGaps 0 0 windows) = some final.target := by
    intro source covers
    obtain ⟨final, text, consumed, target, described⟩ :=
      applyWindow_closeGaps (txdeltaApply_viewing source)
        (show Accepted ((txdeltaApply source).sbufOffset + 0) (0 + 0) windows from accepted) covers
    exact ⟨final, consumed, by rw [target]; exact described⟩
  constructor
  · intro writes
    have within : ∀ window ∈ windows, window.sviewOffset + window.sviewLen ≤
        (windows.map fun window => window.sviewOffset + window.sviewLen).sum := by
      intro window member
      exact List.single_le_sum (by simp) _ (List.mem_map_of_mem member)
    refine (noCopy_of_texts le_rfl le_rfl accepted within fun source length => ?_).2 rfl
    have covers : Covers source windows := fun window member _ => length ▸ within window member
    obtain ⟨final, consumed, described⟩ := writes source covers
    obtain ⟨other, same, closed⟩ := runs source covers
    rw [consumed] at same
    cases same
    exact ⟨final.target, closed, described⟩
  · intro condition source covers
    obtain ⟨final, consumed, closed⟩ := runs source covers
    rw [condition.closeGaps_text le_rfl accepted covers] at closed
    exact ⟨final, consumed, closed⟩

/-- Two overlapping views, and a third view behind a gap that is not copied from. -/
theorem applyWindow_writes_text_overlaps :
    let windows : List TxdeltaWindow := [⟨0, 3, 3, [⟨.source, 0, 3⟩], [], 0⟩,
      ⟨1, 3, 2, [⟨.source, 1, 2⟩], [], 0⟩, ⟨6, 1, 2, [⟨.new, 0, 1⟩, ⟨.target, 0, 1⟩], [9], 1⟩]
    WritesText [1, 2, 3, 4, 5, 6, 7] windows ∧
      deltaText [1, 2, 3, 4, 5, 6, 7] windows = some [1, 2, 3, 3, 4, 9, 9] := by
  intro windows
  have accepted : Accepted 0 0 windows := by
    refine ⟨by decide, by decide, by decide, ⟨[0, 0, 0], [0, 0, 0], rfl, by decide⟩,
      by decide, by decide, by decide, ⟨[0, 0, 0], [0, 0], rfl, by decide⟩,
      by decide, by decide, by decide, ⟨[0], [9, 9], rfl, by decide⟩, trivial⟩
  have condition : NoCopyAfterGap 0 windows := by
    simp [windows, NoCopyAfterGap, TxdeltaWindow.CopiesSource]
  refine ⟨(applyWindow_writes_text_iff windows accepted).mpr condition _ ?_, by decide⟩
  simp [Covers, windows]

/-- A window whose view skips the first byte is applied to that byte. -/
theorem applyWindow_ignores_a_gap :
    let windows : List TxdeltaWindow := [⟨1, 1, 1, [⟨.source, 0, 1⟩], [], 0⟩]
    Accepted 0 0 windows ∧ Covers [5, 6] windows ∧ deltaText [5, 6] windows = some [6] ∧
      (consumeAll applyWindow (txdeltaApply [5, 6]) (windows.map some ++ [none])).1.target = [5] ∧
      ¬ WritesText [5, 6] windows := by
  intro windows
  have described : deltaText [5, 6] windows = some [6] := by decide
  have wrote : (consumeAll applyWindow (txdeltaApply [5, 6])
      (windows.map some ++ [none])).1.target = [5] := by decide
  refine ⟨⟨by decide, by decide, by decide, ⟨[0], [0], rfl, by decide⟩, trivial⟩,
    by simp [Covers, windows], described, wrote, ?_⟩
  rintro ⟨final, consumed, text⟩
  rw [consumed] at wrote
  rw [described, Option.some.injEq] at text
  cases text.trans wrote

end Subversion.Delta
